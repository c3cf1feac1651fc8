import ApostolRates.Directory
import ApostolRates.InOrder

/-!
# The view as the book

`public.rates` shows every rate under the present codes and names of its currencies.
With rates in the order of their dates it is the book written out: one row for each
pair and each date on which the pair was given a rate.
-/

set_option autoImplicit false

namespace ApostolRates

open ThreeValued ValidTime Rollback

namespace RatesRow

def fromCurrency (row : RatesRow) : Currency :=
  ⟨row.currencyFrom, row.currencyFromCode, row.currencyFromName⟩

def toCurrency (row : RatesRow) : Currency :=
  ⟨row.currencyTo, row.currencyToCode, row.currencyToName⟩

def pair (row : RatesRow) : Uuid × Uuid := (row.currencyFrom, row.currencyTo)

end RatesRow

/-- A row of the view is a row of the table with the entries of its two currencies. -/
theorem mem_rates_iff {currency : CurrencyTable} {rate : RateTable} {row : RatesRow} :
    row ∈ rates currency rate ↔ row.rateRow ∈ rate.rows ∧
      currency.entry row.currencyFrom = some row.fromCurrency ∧
        currency.entry row.currencyTo = some row.toCurrency := by
  simp only [rates, Multiset.mem_bind, Multiset.mem_map, Multiset.mem_coe, List.mem_filter,
    decide_eq_true_eq, CurrencyTable.entry_eq_some]
  constructor
  · rintro ⟨t, member, c1, ⟨c1Member, c1Id⟩, c2, ⟨c2Member, c2Id⟩, rfl⟩
    cases c1
    cases c2
    cases c1Id
    cases c2Id
    exact ⟨member, ⟨c1Member, rfl⟩, c2Member, rfl⟩
  · rintro ⟨member, ⟨fromMember, _⟩, toMember, _⟩
    exact ⟨row.rateRow, member, row.fromCurrency, ⟨fromMember, rfl⟩, row.toCurrency,
      ⟨toMember, rfl⟩, rfl⟩

/-- The book has a rate for the pair of the row at its date, the last of which the row
shows, until the next date of the pair or `max_date()`. -/
structure Book.Shows (zone : TimeZone) (book : Book) (row : RatesRow) : Prop where
  fromCurrency : book.currency.entry row.currencyFrom = some row.fromCurrency
  toCurrency : book.currency.entry row.currencyTo = some row.toCurrency
  given : latest row.validFromDate (pairWrites row.pair book.log) =
    some (row.validFromDate, row.value)
  ends : row.validToDate =
    following zone.maxDate row.validFromDate ((pairWrites row.pair book.log).map Prod.fst)

section
variable {zone : TimeZone} {tables : Tables} {book : Book}

theorem Tables.Represent.mem_timeline_iff (represent : tables.Represent zone book)
    (ascending : book.log.Pairwise fun earlier later => earlier.date ≤ later.date)
    (below : ∀ update ∈ book.log, update.date < zone.maxDate) {pair : Uuid × Uuid}
    {period : Period Timestamptz Numeric} :
    period ∈ tables.rate.timeline pair ↔
      latest period.start (pairWrites pair book.log) = some (period.start, period.value) ∧
        period.stop =
          following zone.maxDate period.start ((pairWrites pair book.log).map Prod.fst) := by
  rw [represent.logs pair, Multiset.mem_coe]
  refine mem_chain_entries_iff (dated_pairWrites pair ascending) fun write written => ?_
  obtain ⟨update, member, _, rfl⟩ := mem_pairWrites.mp written
  exact below update member

theorem mem_rows_iff {rate : RateTable} {row : RateRow} :
    row ∈ rate.rows ↔ row.period ∈ rate.timeline row.pair := by
  refine ⟨fun member => mem_timelineOf.mpr ⟨row, member, rfl, rfl⟩, fun member => ?_⟩
  obtain ⟨other, otherMember, samePair, samePeriod⟩ := mem_timelineOf.mp member
  cases row
  cases other
  cases samePair
  cases samePeriod
  exact otherMember

theorem Tables.Represent.shows_iff (represent : tables.Represent zone book)
    (ascending : book.log.Pairwise fun earlier later => earlier.date ≤ later.date)
    (below : ∀ update ∈ book.log, update.date < zone.maxDate) (row : RatesRow) :
    row ∈ rates tables.currency tables.rate ↔ book.Shows zone row := by
  rw [mem_rates_iff, mem_rows_iff, represent.mem_timeline_iff ascending below,
    represent.currency]
  constructor
  · rintro ⟨⟨given, ends⟩, isFrom, isTo⟩
    exact ⟨isFrom, isTo, given, ends⟩
  · rintro ⟨isFrom, isTo, given, ends⟩
    exact ⟨⟨given, ends⟩, isFrom, isTo⟩

theorem Tables.Represent.rates_distinct (represent : tables.Represent zone book)
    (references : tables.rate.References tables.currency)
    (ascending : book.log.Pairwise fun earlier later => earlier.date ≤ later.date)
    (below : ∀ update ∈ book.log, update.date < zone.maxDate) :
    ((rates tables.currency tables.rate).map fun row => (row.pair, row.validFromDate)).Nodup := by
  have sameRows : (rates tables.currency tables.rate).map
      (fun row => (row.pair, row.validFromDate)) =
        tables.rate.rows.map fun row => (row.pair, row.validFromDate) := by
    rw [← rates_map_rateRow tables.currency tables.rate references, Multiset.map_map]
    rfl
  rw [sameRows, Multiset.nodup_map_iff_inj_on (Multiset.Nodup.of_map _ tables.rate.keyUnique)]
  intro left leftMember right rightMember same
  obtain ⟨samePair, sameStart⟩ := Prod.mk.injEq .. ▸ same
  obtain ⟨leftGiven, leftEnds⟩ :=
    (represent.mem_timeline_iff ascending below).mp (mem_rows_iff.mp leftMember)
  obtain ⟨rightGiven, rightEnds⟩ :=
    (represent.mem_timeline_iff ascending below).mp (mem_rows_iff.mp rightMember)
  have starts : left.period.start = right.period.start := sameStart
  rw [samePair, starts] at leftGiven leftEnds
  rw [leftGiven, Option.some.injEq, Prod.mk.injEq] at rightGiven
  have ends := leftEnds.trans rightEnds.symm
  cases left
  cases right
  cases samePair
  cases sameStart
  cases rightGiven.2
  cases ends
  rfl

theorem Tables.Represent.exists_shown_iff (represent : tables.Represent zone book)
    (references : tables.rate.References tables.currency)
    (ascending : book.log.Pairwise fun earlier later => earlier.date ≤ later.date)
    (below : ∀ update ∈ book.log, update.date < zone.maxDate) (pair : Uuid × Uuid)
    (date : Timestamptz) :
    (∃ row ∈ rates tables.currency tables.rate, row.pair = pair ∧ row.validFromDate = date) ↔
      ∃ update ∈ book.log, update.pair = pair ∧ update.date = date := by
  constructor
  · rintro ⟨row, member, rfl, rfl⟩
    have shown := (represent.shows_iff ascending below row).mp member
    obtain ⟨update, updateMember, samePair, same⟩ := mem_pairWrites.mp (latest_mem shown.given).1
    exact ⟨update, updateMember, samePair, congrArg Prod.fst same⟩
  · rintro ⟨update, updateMember, rfl, rfl⟩
    have written : update.date ∈ (pairWrites update.pair book.log).map Prod.fst :=
      List.mem_map_of_mem (mem_pairWrites.mpr ⟨update, updateMember, rfl, rfl⟩)
    obtain ⟨entry, kept, sameDate⟩ := List.mem_map.mp ((dates_entries _ _).mpr written)
    have given := (mem_entries_iff (dated_pairWrites update.pair ascending)).mp kept
    have period : (⟨entry.1, following zone.maxDate entry.1
        ((pairWrites update.pair book.log).map Prod.fst), entry.2⟩ :
          Period Timestamptz Numeric) ∈ tables.rate.timeline update.pair :=
      (represent.mem_timeline_iff ascending below).mpr ⟨given, rfl⟩
    obtain ⟨row, rowMember, samePair, samePeriod⟩ := mem_timelineOf.mp period
    rw [← rates_map_rateRow tables.currency tables.rate references] at rowMember
    obtain ⟨shown, shownMember, rfl⟩ := Multiset.mem_map.mp rowMember
    exact ⟨shown, shownMember, samePair, (congrArg Period.start samePeriod).trans sameDate⟩

end

/-- With rates in the order of their dates the view is the book written out: a row for
each pair and each date given for it and no other, which shows the last value given at
that date, up to the next date of the pair or `max_date()`, under the present codes and
names of both currencies. -/
theorem view_is_book (zone : TimeZone) (transactions : List Transaction)
    (inOrder : InOrder zone transactions) :
    ((rates (Database.empty.run transactions).currency
        (Database.empty.run transactions).rate).map
          fun row => (row.pair, row.validFromDate)).Nodup ∧
      (∀ pair date, (∃ row ∈ rates (Database.empty.run transactions).currency
          (Database.empty.run transactions).rate, row.pair = pair ∧ row.validFromDate = date) ↔
        ∃ update ∈ (Book.empty.run transactions).log, update.pair = pair ∧ update.date = date) ∧
      ∀ row, row ∈ rates (Database.empty.run transactions).currency
          (Database.empty.run transactions).rate ↔
        (Book.empty.run transactions).Shows zone row := by
  have below : ∀ update ∈ (Book.empty.run transactions).log, update.date < zone.maxDate :=
    fun update member => inOrder.below _ (Book.date_mem member)
  have represent := inOrder.represent
  have references := (Database.empty.run transactions).references
  exact ⟨represent.rates_distinct references inOrder.log_ascending below,
    represent.exists_shown_iff references inOrder.log_ascending below,
    represent.shows_iff inOrder.log_ascending below⟩

theorem first_delivery_shown :
    InOrder .utc (openingTransactions ++ [firstDelivery] ++ [secondDelivery]) ∧
      ⟨usd.id, "USD", "Доллар США", rub.id, "RUB", "Рубль", .finite 96245026 6, .onDay 9000,
        .onDay 9001⟩ ∈ rates
          (Database.empty.run (openingTransactions ++ [firstDelivery] ++ [secondDelivery])).currency
          (Database.empty.run (openingTransactions ++ [firstDelivery] ++ [secondDelivery])).rate :=
  ⟨inOrder_deliveries, ((view_is_book .utc _ inOrder_deliveries).2.2 _).mpr
    ⟨by decide, by decide, by decide, by decide⟩⟩

end ApostolRates
