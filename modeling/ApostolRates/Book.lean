import ApostolRates.AsOfHistory
import ApostolRates.Database
import ApostolRates.Library.AppendLog

/-!
# The book of rates

As long as no rate is dated before an earlier one, the database keeps a book: the
currencies, and a log to which every successful transaction appends the rates that
it gives.  The answer of `get_rate` is then the last entry of the log for the pair
that is not dated after the instant, and a transaction succeeds exactly when the
book can enter it.
-/

set_option autoImplicit false

namespace ApostolRates

open ThreeValued ValidTime Rollback

structure Book where
  currency : CurrencyTable
  log : List Update

def pairWrites (pair : Uuid × Uuid) (log : List Update) : List (Timestamptz × Numeric) :=
  (log.filter fun update => update.pair = pair).map fun update => (update.date, update.value)

namespace Book

def empty : Book := ⟨⟨[], List.nodup_nil, List.nodup_nil⟩, []⟩

/-- The last rate given for the pair that is not dated after the instant. -/
def read (book : Book) (currencyFrom currencyTo : Uuid) (instant : Timestamptz) :
    Option Numeric :=
  (latest instant (pairWrites (currencyFrom, currencyTo) book.log)).map Prod.snd

/-- Rates are entered when all of their currencies are known. -/
def post (book : Book) (updates : List Update) : Except PgError Book :=
  if ∀ update ∈ updates, update.Known book.currency then
    .ok { book with log := book.log ++ updates }
  else .error .foreignKeyViolation

def Mentions (book : Book) (id : Uuid) : Prop :=
  ∃ update ∈ book.log, update.currencyFrom = id ∨ update.currencyTo = id

instance (book : Book) (id : Uuid) : Decidable (book.Mentions id) :=
  inferInstanceAs (Decidable (∃ update ∈ book.log, _))

def step (book : Book) (transaction : Transaction) : Except PgError Book :=
  match transaction.statement with
  | .newCurrency pId pCode pName => do
      let (currency, _) ← newCurrency book.currency pId pCode pName
      .ok { book with currency := currency }
  | .addCurrency genRandomUuid pCode pName => do
      let (currency, _) ← addCurrency genRandomUuid book.currency pCode pName
      .ok { book with currency := currency }
  | .updateCurrency pId pCode pName => do
      let (currency, _) ← updateCurrency book.currency pId pCode pName
      .ok { book with currency := currency }
  | .deleteCurrency chosen =>
      if ∃ row ∈ book.currency.rows, chosen row = true ∧ book.Mentions row.id then
        .error .foreignKeyViolation
      else do
        let currency ← storeCurrencies (book.currency.rows.filter fun row => !chosen row)
        .ok { book with currency := currency }
  | .exchangeRateDone _ =>
      .ok (undoing book (transaction.updates book.currency >>= book.post))
  | .updateRate _ _ _ _ | .updateRateNow _ _ _ => transaction.updates book.currency >>= book.post
  | .exchangeRateFail _ => .ok book

end Book

def Transaction.date (transaction : Transaction) : Option Timestamptz :=
  match transaction.statement with
  | .updateRate _ _ _ pDateFrom => pDateFrom
  | .updateRateNow _ _ _ | .exchangeRateDone _ => some transaction.now
  | _ => none

/-- One session time zone, and rates given in the order of their dates, all of them
before `max_date()`. -/
structure InOrder (zone : TimeZone) (transactions : List Transaction) : Prop where
  sameZone : ∀ transaction ∈ transactions, transaction.zone = zone
  below : ∀ date ∈ transactions.filterMap Transaction.date, date < zone.maxDate
  ascending : (transactions.filterMap Transaction.date).Pairwise (· ≤ ·)

/-! ## The log in the rate table -/

/-- Every timeline is the chain of what the log has for the pair. -/
def RateTable.Logs (zone : TimeZone) (log : List Update) (rate : RateTable) : Prop :=
  ∀ pair, rate.timeline pair = chain zone.maxDate (entries (pairWrites pair log))

theorem pairWrites_append (pair : Uuid × Uuid) (log later : List Update) :
    pairWrites pair (log ++ later) = pairWrites pair log ++ pairWrites pair later := by
  simp [pairWrites]

theorem pairWrites_singleton (update : Update) :
    pairWrites update.pair [update] = [(update.date, update.value)] := by
  simp [pairWrites]

theorem pairWrites_singleton_of_ne {pair : Uuid × Uuid} {update : Update}
    (differs : pair ≠ update.pair) : pairWrites pair [update] = [] := by
  simp [pairWrites, Ne.symm differs]

theorem mem_pairWrites {pair : Uuid × Uuid} {log : List Update} {write : Timestamptz × Numeric} :
    write ∈ pairWrites pair log ↔
      ∃ update ∈ log, update.pair = pair ∧ (update.date, update.value) = write := by
  simp [pairWrites, and_assoc]

theorem pairWrites_eq_nil_iff {pair : Uuid × Uuid} {log : List Update} :
    pairWrites pair log = [] ↔ ∀ update ∈ log, update.pair ≠ pair := by
  simp [pairWrites]

section
variable {zone : TimeZone} {log : List Update} {rate after : RateTable}

theorem RateTable.Logs.exists_row_iff (logs : rate.Logs zone log) (pair : Uuid × Uuid) :
    (∃ row ∈ rate.rows, row.pair = pair) ↔ ∃ update ∈ log, update.pair = pair := by
  have nonempty : rate.timeline pair = 0 ↔ pairWrites pair log = [] := by
    rw [logs pair, Multiset.coe_eq_zero, chain_eq_nil_iff, entries_eq_nil_iff]
  rw [pairWrites_eq_nil_iff] at nonempty
  rw [← not_iff_not]
  simp only [not_exists, not_and]
  refine Iff.trans ?_ nonempty
  rw [Multiset.eq_zero_iff_forall_notMem]
  constructor
  · intro free period member
    obtain ⟨row, rowMember, samePair, _⟩ := mem_timelineOf.mp member
    exact free row rowMember samePair
  · intro none row member samePair
    exact none row.period (mem_timelineOf.mpr ⟨row, member, samePair, rfl⟩)

theorem RateTable.Logs.refersTo_iff {book : Book} (logs : rate.Logs zone book.log) (id : Uuid) :
    rate.RefersTo id ↔ book.Mentions id := by
  constructor
  · rintro ⟨row, member, uses⟩
    obtain ⟨update, updateMember, same⟩ := (logs.exists_row_iff row.pair).mp ⟨row, member, rfl⟩
    refine ⟨update, updateMember, ?_⟩
    rwa [show update.currencyFrom = row.currencyFrom from congrArg Prod.fst same,
      show update.currencyTo = row.currencyTo from congrArg Prod.snd same]
  · rintro ⟨update, member, uses⟩
    obtain ⟨row, rowMember, same⟩ := (logs.exists_row_iff update.pair).mpr ⟨update, member, rfl⟩
    refine ⟨row, rowMember, ?_⟩
    rwa [show row.currencyFrom = update.currencyFrom from congrArg Prod.fst same,
      show row.currencyTo = update.currencyTo from congrArg Prod.snd same]

variable {currency : CurrencyTable} {scan : Scan} {update : Update}

theorem known_of_apply (references : rate.References currency)
    (success : update.apply zone currency scan rate = .ok after) : update.Known currency := by
  rcases ((update.apply_eq_ok_iff zone currency scan rate).mp success).2 with overwrites | known
  · cases taken : update.taken scan rate with
    | none => simp [Update.Overwrites, taken] at overwrites
    | some row =>
        obtain ⟨member, samePair, _⟩ := mem_selectRows.mp (Scan.selectInto_mem taken)
        have found := references row member
        rw [show row.currencyFrom = update.currencyFrom from congrArg Prod.fst samePair,
          show row.currencyTo = update.currencyTo from congrArg Prod.snd samePair] at found
        exact found
  · exact known

/-- A call dated no earlier than the log appends to it. -/
theorem RateTable.Logs.apply (scan : Scan) (logs : rate.Logs zone log)
    (known : update.Known currency) (below : update.date < zone.maxDate)
    (ordered : ∀ earlier ∈ log, earlier.date ≤ update.date) :
    ∃ after, update.apply zone currency scan rate = .ok after ∧
      after.Logs zone (log ++ [update]) := by
  have notBefore : ∀ entry ∈ (entries (pairWrites update.pair log)).head?,
      entry.1 ≤ update.date := by
    intro entry head
    have member := List.mem_of_mem_head? head
    obtain ⟨write, written, same⟩ := List.mem_map.mp
      ((dates_entries _ entry.1).mp (List.mem_map_of_mem member))
    obtain ⟨earlier, earlierMember, _, rfl⟩ := mem_pairWrites.mp written
    exact same ▸ ordered earlier earlierMember
  obtain ⟨after, success, own⟩ := apply_chain scan known below (ascending_entries _) notBefore
    (logs update.pair)
  refine ⟨after, success, fun pair => ?_⟩
  rw [pairWrites_append]
  by_cases same : pair = update.pair
  · rw [same, own, pairWrites_singleton, entries_concat]
  · rw [pairWrites_singleton_of_ne same, List.append_nil, (updateRate_ok success).2 pair same]
    exact logs pair

theorem RateTable.Logs.write (context : Context) {date : Timestamptz} {updates : List Update}
    (logs : rate.Logs context.zone log) (below : date < context.zone.maxDate)
    (ordered : ∀ earlier ∈ log, earlier.date ≤ date)
    (dated : ∀ update ∈ updates, update.date = date)
    (known : ∀ update ∈ updates, update.Known context.currency) :
    ∃ after, updates.foldlM context.write rate = .ok after ∧
      after.Logs context.zone (log ++ updates) := by
  induction updates generalizing log rate with
  | nil => exact ⟨rate, rfl, by rwa [List.append_nil]⟩
  | cons update rest ih =>
      have isDate := dated update List.mem_cons_self
      obtain ⟨middle, head, middleLogs⟩ := logs.apply context.scan
        (known update List.mem_cons_self) (isDate ▸ below) (isDate ▸ ordered)
      have stillOrdered : ∀ earlier ∈ log ++ [update], earlier.date ≤ date := by
        intro earlier member
        rcases List.mem_append.mp member with member | member
        · exact ordered earlier member
        · rw [List.mem_singleton.mp member, isDate]
      obtain ⟨last, tail, lastLogs⟩ := ih middleLogs stillOrdered
        (fun other member => dated other (List.mem_cons_of_mem _ member))
        (fun other member => known other (List.mem_cons_of_mem _ member))
      refine ⟨last, loop_cons_ok.mpr ⟨middle, head, tail⟩, ?_⟩
      rwa [List.append_assoc] at lastLogs

theorem known_of_write (context : Context) {updates : List Update}
    (references : rate.References context.currency)
    (written : updates.foldlM context.write rate = .ok after) :
    ∀ update ∈ updates, update.Known context.currency := by
  induction updates generalizing rate with
  | nil => exact fun _ member => absurd member List.not_mem_nil
  | cons update rest ih =>
      obtain ⟨middle, head, tail⟩ := loop_cons_ok.mp written
      intro other member
      rcases List.mem_cons.mp member with rfl | member
      · exact known_of_apply references head
      · exact ih (references_apply references head) tail other member

end

/-! ## The book of a database -/

/-- The database says what the book says. -/
structure Tables.Represent (zone : TimeZone) (tables : Tables) (book : Book) : Prop where
  currency : tables.currency = book.currency
  logs : tables.rate.Logs zone book.log

section
variable {zone : TimeZone} {tables after : Tables} {book bookAfter : Book}
variable {transaction : Transaction} {updates : List Update}

theorem Transaction.updates_dated {currency : CurrencyTable}
    (asked : transaction.updates currency = .ok updates) :
    ∀ update ∈ updates, transaction.date = some update.date := by
  have single : ∀ {pCurrencyFrom pCurrencyTo pValue pDateFrom},
      (nonNullUpdate pCurrencyFrom pCurrencyTo pValue pDateFrom).map ([·]) = .ok updates →
      ∀ update ∈ updates, pDateFrom = some update.date := by
    intro pCurrencyFrom pCurrencyTo pValue pDateFrom mapped
    obtain ⟨update, nonNull, rfl⟩ := except_map_eq_ok.mp mapped
    intro other member
    rw [List.mem_singleton.mp member]
    exact (nonNullUpdate_eq_ok.mp nonNull).2.2.2
  unfold Transaction.updates at asked
  unfold Transaction.date
  cases statement : transaction.statement with
  | updateRate pCurrencyFrom pCurrencyTo pValue pDateFrom =>
      rw [statement] at asked
      exact single asked
  | updateRateNow pCurrencyFrom pCurrencyTo pValue =>
      rw [statement] at asked
      exact single asked
  | exchangeRateDone pRequest =>
      rw [statement] at asked
      obtain ⟨_, each⟩ := replyUpdates_spec asked
      exact fun update member => congrArg some (each update member).2.2.1.symm
  | _ =>
      rw [statement] at asked
      cases asked
      exact fun _ member => absurd member List.not_mem_nil

theorem Book.post_eq_ok :
    book.post updates = .ok bookAfter ↔
      (∀ update ∈ updates, update.Known book.currency) ∧
        { book with log := book.log ++ updates } = bookAfter := by
  unfold Book.post
  split
  · rename_i known
    rw [Except.ok.injEq, and_iff_right known]
  · rename_i unknown
    simp [unknown]

/-- The transaction runs in the time zone, and gives no rate that is dated before one
in the log or at `max_date()` or later. -/
def Book.Admits (zone : TimeZone) (book : Book) (transaction : Transaction) : Prop :=
  transaction.zone = zone ∧ ∀ date ∈ transaction.date, date < zone.maxDate ∧
    ∀ update ∈ book.log, update.date ≤ date

theorem matches_post (represent : tables.Represent zone book)
    (references : tables.rate.References tables.currency) (admits : book.Admits zone transaction)
    (asked : transaction.updates book.currency = .ok updates) :
    Matches (fun rate bookAfter => Tables.Represent zone { tables with rate := rate } bookAfter)
      (updates.foldlM (transaction.context book.currency).write tables.rate)
      (book.post updates) := by
  obtain ⟨sameZone, dates⟩ := admits
  have sameCurrency := represent.currency
  have writes : (∀ update ∈ updates, update.Known book.currency) →
      ∃ rate, updates.foldlM (transaction.context book.currency).write tables.rate = .ok rate ∧
        rate.Logs zone (book.log ++ updates) := by
    intro known
    subst sameZone
    cases shape : updates with
    | nil => exact ⟨tables.rate, rfl, by rw [List.append_nil]; exact represent.logs⟩
    | cons update rest =>
        rw [← shape]
        have isDate := Transaction.updates_dated asked
        have hasDate := isDate update (by rw [shape]; exact List.mem_cons_self)
        refine RateTable.Logs.write (transaction.context book.currency) represent.logs
          (dates _ hasDate).1 (dates _ hasDate).2 (fun other member => ?_) known
        exact Option.some.inj ((isDate other member).symm.trans hasDate)
  refine .of_ok (fun rate written => ?_) fun bookAfter posted => ?_
  · have known := known_of_write (transaction.context book.currency)
      (sameCurrency ▸ references) written
    obtain ⟨same, again, logs⟩ := writes known
    rw [written] at again
    cases again
    exact ⟨_, Book.post_eq_ok.mpr ⟨known, rfl⟩, sameCurrency, logs⟩
  · obtain ⟨rate, written, _⟩ := writes (Book.post_eq_ok.mp posted).1
    exact ⟨rate, written⟩

theorem matches_currency {Row : Type} (represent : tables.Represent zone book)
    (outcome : Except PgError (CurrencyTable × Row)) :
    Matches (Tables.Represent zone)
      (do let (currency, _) ← outcome; .ok { tables with currency := currency })
      (do let (currency, _) ← outcome; .ok { book with currency := currency }) := by
  cases outcome with
  | error failure => exact .failed failure failure
  | ok result => exact .succeeded _ _ ⟨rfl, represent.logs⟩

theorem matches_updateRate {pCurrencyFrom pCurrencyTo : Option Uuid} {pValue : Option Numeric}
    {pDateFrom : Option Timestamptz} (represent : tables.Represent zone book)
    (references : tables.rate.References tables.currency) (admits : book.Admits zone transaction)
    (asks : transaction.updates book.currency =
      (nonNullUpdate pCurrencyFrom pCurrencyTo pValue pDateFrom).map ([·])) :
    Matches (Tables.Represent zone)
      (transaction.updateRate tables pCurrencyFrom pCurrencyTo pValue pDateFrom)
      (transaction.updates book.currency >>= book.post) := by
  refine .of_ok (fun after success => ?_) fun bookAfter success => ?_
  · obtain ⟨updates, rate, mapped, written, rfl⟩ := Transaction.updateRate_loop.mp success
    rw [← asks] at mapped
    rw [represent.currency] at written
    obtain ⟨bookAfter, posted, kept⟩ := (matches_post represent references admits mapped).forth
      written
    exact ⟨bookAfter, except_bind_eq_ok.mpr ⟨updates, mapped, posted⟩, kept⟩
  · obtain ⟨updates, asked, posted⟩ := except_bind_eq_ok.mp success
    obtain ⟨rate, written, _⟩ := (matches_post represent references admits asked).back posted
    rw [asks] at asked
    rw [← represent.currency] at written
    exact ⟨_, Transaction.updateRate_loop.mpr ⟨updates, rate, asked, written, rfl⟩⟩

theorem matches_deleteCurrency (represent : tables.Represent zone book)
    (chosen : Currency → Bool) :
    Matches (Tables.Represent zone)
      (do
        let currency ← deleteCurrency tables.currency tables.rate chosen
        .ok { tables with currency := currency })
      (if ∃ row ∈ book.currency.rows, chosen row = true ∧ book.Mentions row.id then
        .error .foreignKeyViolation
      else do
        let currency ← storeCurrencies (book.currency.rows.filter fun row => !chosen row)
        .ok { book with currency := currency }) := by
  have used : (∃ row ∈ tables.currency.rows, chosen row = true ∧ tables.rate.RefersTo row.id) ↔
      ∃ row ∈ book.currency.rows, chosen row = true ∧ book.Mentions row.id := by
    simp only [represent.currency, represent.logs.refersTo_iff]
  unfold deleteCurrency
  by_cases mentioned : ∃ row ∈ book.currency.rows, chosen row = true ∧ book.Mentions row.id
  · rw [if_pos mentioned, if_pos (used.mpr mentioned)]
    exact .failed _ _
  · rw [if_neg mentioned, if_neg fun refers => mentioned (used.mp refers), represent.currency]
    cases storeCurrencies (book.currency.rows.filter fun row => !chosen row) with
    | error failure => exact .failed failure failure
    | ok stored => exact .succeeded _ _ ⟨rfl, represent.logs⟩

theorem matches_exchangeRateDone {pRequest : Uuid} (represent : tables.Represent zone book)
    (references : tables.rate.References tables.currency) (admits : book.Admits zone transaction)
    (statement : transaction.statement = .exchangeRateDone pRequest) :
    Matches (Tables.Represent zone)
      (do
        let rate ← exchangeRateDone (transaction.context tables.currency) tables.rate pRequest
        .ok { tables with rate := rate })
      (.ok (undoing book (transaction.updates book.currency >>= book.post)) :
        Except PgError Book) := by
  have sameContext : transaction.context tables.currency = transaction.context book.currency := by
    rw [represent.currency]
  have asks : replyUpdates (transaction.context book.currency)
      (((transaction.context book.currency).httpFetch pRequest).getD Fetch.null) =
        transaction.updates book.currency := by
    rw [Transaction.updates, statement]
    rfl
  rw [sameContext, exchangeRateDone_eq, asks]
  refine .succeeded _ _ ?_
  cases asked : transaction.updates book.currency with
  | error failure => exact represent
  | ok updates =>
      exact (matches_post represent references admits asked).related_undoing represent

/-- A transaction does the same to the database and to the book, success included. -/
theorem matches_execute (represent : tables.Represent zone book)
    (references : tables.rate.References tables.currency) (admits : book.Admits zone transaction) :
    Matches (Tables.Represent zone) (transaction.execute tables) (book.step transaction) := by
  unfold Transaction.execute Book.step
  cases statement : transaction.statement with
  | newCurrency pId pCode pName =>
      rw [represent.currency]
      exact matches_currency represent _
  | addCurrency genRandomUuid pCode pName =>
      rw [represent.currency]
      exact matches_currency represent _
  | updateCurrency pId pCode pName =>
      rw [represent.currency]
      exact matches_currency represent _
  | deleteCurrency chosen => exact matches_deleteCurrency represent chosen
  | updateRate pCurrencyFrom pCurrencyTo pValue pDateFrom =>
      exact matches_updateRate represent references admits
        (by rw [Transaction.updates, statement])
  | updateRateNow pCurrencyFrom pCurrencyTo pValue =>
      exact matches_updateRate represent references admits
        (by rw [Transaction.updates, statement])
  | exchangeRateDone pRequest =>
      exact matches_exchangeRateDone represent references admits statement
  | exchangeRateFail pRequest => exact .succeeded _ _ represent

end

end ApostolRates
