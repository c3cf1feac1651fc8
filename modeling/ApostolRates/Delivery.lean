import ApostolRates.InOrder
import ApostolRates.Model.Latest
import ApostolRates.RateTexts

/-!
# From the endpoint to the rates

A reply in the format of the rates endpoint, on its way through the callback into a
database whose rates come in the order of their dates.  Either every number under a
known code has at most nine integer digits, and `get_rate` returns all of them, up to
their eighth place; or one of them has more, and nothing of the reply is stored.
-/

set_option autoImplicit false

namespace ApostolRates

open ThreeValued ValidTime Rollback Decimal

/-! ## The number of a quote -/

namespace Quote

def number (quote : Quote) : ℚ := fixed quote.unscaled quote.scale

def stored (quote : Quote) : Numeric :=
  .finite (quote.unscaled.tdiv (10 ^ (quote.scale - 8))) (min quote.scale 8)

theorem stored_rational (quote : Quote) :
    quote.stored.rational = some (truncate 8 quote.number) := by
  rw [number, truncate_fixed]
  rfl

theorem natAbs_lt_iff (quote : Quote) :
    quote.unscaled.natAbs < 10 ^ (9 + quote.scale) ↔ |quote.number| < 10 ^ 9 := by
  have positive : (0 : ℚ) < 10 ^ quote.scale := by positivity
  rw [number, fixed, abs_div, abs_of_pos positive, div_lt_iff₀ positive, ← pow_add,
    ← Int.cast_abs, Int.abs_eq_natAbs]
  exact_mod_cast Iff.rfl

theorem toNumber_text (quote : Quote) :
    toNumber quote.field.2.asText rateTemplate =
      if |quote.number| < 10 ^ 9 then .ok (some quote.stored)
      else .error .numericValueOutOfRange := by
  have text : quote.field.2.asText = some (Jsonb.decimalText quote.unscaled quote.scale) := by
    simp [field, Jsonb.asText, Jsonb.toCString]
  rw [text, toNumber_decimalText]
  by_cases fits : |quote.number| < 10 ^ 9
  · rw [if_pos fits, if_neg (not_le.mpr (quote.natAbs_lt_iff.mpr fits))]
    rfl
  · rw [if_neg fits, if_pos (not_lt.mp fun small => fits (quote.natAbs_lt_iff.mp small))]

end Quote

def Fit (currency : CurrencyTable) (quotes : List Quote) : Prop :=
  ∀ quote ∈ quotes, getCurrencyId currency (some quote.code) ≠ none → |quote.number| < 10 ^ 9

/-! ## Reading the reply -/

section
variable {context : Context} {uCurrencyFrom uCurrencyTo : Uuid} {quotes : List Quote}
variable {quote : Quote} {updates : List Update}

def quoteEntry (quote : Quote) : String × Option String := (quote.code, quote.field.2.asText)

theorem entryTexts_quotes (quotes : List Quote) :
    entryTexts (quotes.map Quote.field) = quotes.map quoteEntry := by
  rw [entryTexts, List.map_map]
  rfl

theorem entryUpdate_quote (known : context.currency.selectId (some quote.code) = some uCurrencyTo) :
    entryUpdate context uCurrencyFrom (quoteEntry quote) =
      if |quote.number| < 10 ^ 9 then
        .ok (some ⟨uCurrencyFrom, uCurrencyTo, quote.stored, context.now⟩)
      else .error .numericValueOutOfRange := by
  have same : context.currency.selectId (some (quoteEntry quote).1) = some uCurrencyTo := known
  have text : (quoteEntry quote).2 = quote.field.2.asText := rfl
  simp only [entryUpdate, same, text, quote.toNumber_text]
  by_cases fits : |quote.number| < 10 ^ 9
  · rw [if_pos fits, if_pos fits]
    rfl
  · rw [if_neg fits, if_neg fits]
    rfl

theorem exists_collect_quotes :
    (∃ updates, collect (entryUpdate context uCurrencyFrom) (quotes.map quoteEntry) =
        .ok updates) ↔ Fit context.currency quotes := by
  rw [exists_collect_iff, List.forall_mem_map]
  refine forall₂_congr fun quote _ => ?_
  rw [getCurrencyId]
  cases known : context.currency.selectId (some quote.code) with
  | none =>
      have same : context.currency.selectId (some (quoteEntry quote).1) = none := known
      simp [entryUpdate_unknown same]
  | some uCurrencyTo =>
      rw [entryUpdate_quote known]
      split
      · rename_i fits
        simp [fits]
      · rename_i large
        simp [large]

theorem mem_collect_quotes
    (collected : collect (entryUpdate context uCurrencyFrom) (quotes.map quoteEntry) =
      .ok updates) {update : Update} :
    update ∈ updates ↔ ∃ quote ∈ quotes, ∃ uCurrencyTo,
      context.currency.selectId (some quote.code) = some uCurrencyTo ∧
        update = ⟨uCurrencyFrom, uCurrencyTo, quote.stored, context.now⟩ := by
  have fit := exists_collect_quotes.mp ⟨updates, collected⟩
  rw [mem_collect collected]
  simp only [List.mem_map, exists_exists_and_eq_and]
  refine exists_congr fun quote => and_congr_right fun member => ?_
  cases known : context.currency.selectId (some quote.code) with
  | none =>
      have same : context.currency.selectId (some (quoteEntry quote).1) = none := known
      simp [entryUpdate_unknown same]
  | some uCurrencyTo =>
      have fits := fit quote member (by rw [getCurrencyId, known]; simp)
      rw [entryUpdate_quote known, if_pos fits]
      simp [eq_comm]

end

/-! ## The callback of a reply -/

/-- A callback of a request that was answered with the object. -/
def Transaction.Receives (transaction : Transaction) (fields : List (String × Jsonb)) : Prop :=
  ∃ pRequest f, transaction.statement = .exchangeRateDone pRequest ∧
    transaction.httpFetch pRequest = some f ∧ f.status = some 200 ∧
    f.agent = some "api.exchangerate.host" ∧ f.command = some "latest" ∧
    transaction.runtime.Parses f.response fields

section
variable {transaction : Transaction} {currency : CurrencyTable} {servedAt : Timestamptz}
variable {base date : String} {day : Date} {quotes : List Quote} {uCurrencyFrom : Uuid}

theorem Transaction.Receives.updates
    (receives : transaction.Receives (latestReply servedAt (some base) date quotes))
    (dated : transaction.runtime.dateIn date = .ok day)
    (known : getCurrencyId currency (some base) = some uCurrencyFrom) :
    transaction.updates currency =
      collect (entryUpdate (transaction.context currency) uCurrencyFrom)
        (quotes.map quoteEntry) := by
  obtain ⟨pRequest, f, statement, request, isOk, isAgent, isCommand, parses⟩ := receives
  have isLatest : f.IsLatest := by
    simp [Fetch.IsLatest, holds_both, holds_equal, isAgent, isCommand]
  have record : jsonbToRecord transaction.runtime
      (some (.object (latestReply servedAt (some base) date quotes))) =
        .ok ⟨some true, some base, some day, some (.object (quotes.map Quote.field))⟩ := by
    refine jsonbToRecord_object.mpr ⟨rfl, ?_, rfl, rfl⟩
    exact strict_eq_some.mpr ⟨date, rfl, dated⟩
  have decoded := decodeReply_of_parses parses
  rw [record] at decoded
  have accepted : ¬ Holds (negate (some true)) := by decide
  have found : currency.selectId (some base) = some uCurrencyFrom := known
  rw [Transaction.updates, statement]
  simp only [request, Option.getD_some, replyUpdates, isOk, isLatest, if_true,
    Transaction.context, decoded]
  simp only [bind, Except.bind, recordUpdates, accepted, if_false, found, jsonbEachText]
  rw [← entryTexts_quotes]
  rfl

theorem Database.run_unreadable {database : Database} {transactions : List Transaction}
    {pRequest : Uuid} {failure : PgError}
    (statement : transaction.statement = .exchangeRateDone pRequest)
    (unread : transaction.updates (database.run transactions).currency = .error failure) :
    (database.run (transactions ++ [transaction])).toTables =
      (database.run transactions).toTables := by
  have unreadable : replyUpdates (transaction.context (database.run transactions).currency)
      (((transaction.context (database.run transactions).currency).httpFetch pRequest).getD
        Fetch.null) = .error failure := by
    rw [Transaction.updates, statement] at unread
    exact unread
  have executed : transaction.execute (database.run transactions).toTables =
      .ok (database.run transactions).toTables := by
    rw [Transaction.execute, statement]
    dsimp only
    rw [exchangeRateDone_eq, unreadable]
    rfl
  rcases run_concat_cases Database.step database transactions transaction with
    ⟨_, _, same⟩ | success
  · exact congrArg Database.toTables same
  · have again := Database.step_eq_ok.mp success
    exact Except.ok.inj (again.symm.trans executed)

/-! ## The answers after a reply -/

variable {zone : TimeZone} {transactions : List Transaction} {updates : List Update}

theorem Transaction.Receives.grown
    (receives : transaction.Receives (latestReply servedAt (some base) date quotes))
    (dated : transaction.runtime.dateIn date = .ok day)
    (known : getCurrencyId (Book.empty.run transactions).currency (some base) =
      some uCurrencyFrom)
    (collected : collect (entryUpdate
      (transaction.context (Book.empty.run transactions).currency) uCurrencyFrom)
        (quotes.map quoteEntry) = .ok updates) :
    (Book.empty.run (transactions ++ [transaction])).log =
        (Book.empty.run transactions).log ++ updates ∧ (updates.map Update.pair).Nodup := by
  have asked := receives.updates dated known
  obtain ⟨pRequest, f, statement, _⟩ := receives
  rw [collected] at asked
  refine ⟨congrArg Book.log (Book.run_concat_of_ok (Book.step_callback statement asked)), ?_⟩
  rw [Transaction.updates, statement] at asked
  exact replyUpdates_pairs asked

/-- The numbers of a reply that fits are what is read from then on. -/
theorem Transaction.Receives.getRate_quote
    (receives : transaction.Receives (latestReply servedAt (some base) date quotes))
    (inOrder : InOrder zone (transactions ++ [transaction]))
    (dated : transaction.runtime.dateIn date = .ok day)
    (known : getCurrencyId (Database.empty.run transactions).currency (some base) =
      some uCurrencyFrom) (fit : Fit (Database.empty.run transactions).currency quotes)
    {quote : Quote} (member : quote ∈ quotes) {uCurrencyTo : Uuid}
    (isCode : getCurrencyId (Database.empty.run transactions).currency (some quote.code) =
      some uCurrencyTo) (scan : Scan) {instant : Timestamptz} (begun : transaction.now ≤ instant)
    (below : instant < zone.maxDate) :
    getRate scan (Database.empty.run (transactions ++ [transaction])).rate (some uCurrencyFrom)
      (some uCurrencyTo) (some instant) = some quote.stored := by
  have part := inOrder.of_prefix (List.prefix_append transactions [transaction])
  rw [part.represent.currency] at known fit isCode
  obtain ⟨updates, collected⟩ : ∃ updates, collect (entryUpdate
      (transaction.context (Book.empty.run transactions).currency) uCurrencyFrom)
        (quotes.map quoteEntry) = .ok updates := exists_collect_quotes.mpr fit
  obtain ⟨grown, distinct⟩ := receives.grown dated known collected
  have given : ⟨uCurrencyFrom, uCurrencyTo, quote.stored, transaction.now⟩ ∈ updates :=
    (mem_collect_quotes collected).mpr ⟨quote, member, uCurrencyTo, isCode, rfl⟩
  rw [inOrder.getRate, if_pos below]
  exact Book.read_given grown distinct given begun

theorem Transaction.Receives.getRate_elsewhere
    (receives : transaction.Receives (latestReply servedAt (some base) date quotes))
    (inOrder : InOrder zone (transactions ++ [transaction]))
    (dated : transaction.runtime.dateIn date = .ok day)
    (known : getCurrencyId (Database.empty.run transactions).currency (some base) =
      some uCurrencyFrom) (fit : Fit (Database.empty.run transactions).currency quotes)
    (before now : Scan) {currencyFrom currencyTo : Uuid} {instant : Timestamptz}
    (elsewhere : instant < transaction.now ∨ currencyFrom ≠ uCurrencyFrom ∨ ∀ quote ∈ quotes,
      getCurrencyId (Database.empty.run transactions).currency (some quote.code) ≠
        some currencyTo) :
    getRate now (Database.empty.run (transactions ++ [transaction])).rate (some currencyFrom)
        (some currencyTo) (some instant) =
      getRate before (Database.empty.run transactions).rate (some currencyFrom)
        (some currencyTo) (some instant) := by
  have part := inOrder.of_prefix (List.prefix_append transactions [transaction])
  rw [part.represent.currency] at known fit elsewhere
  obtain ⟨updates, collected⟩ : ∃ updates, collect (entryUpdate
      (transaction.context (Book.empty.run transactions).currency) uCurrencyFrom)
        (quotes.map quoteEntry) = .ok updates := exists_collect_quotes.mpr fit
  obtain ⟨grown, _⟩ := receives.grown dated known collected
  have same : (Book.empty.run (transactions ++ [transaction])).read currencyFrom currencyTo
      instant = (Book.empty.run transactions).read currencyFrom currencyTo instant := by
    rcases elsewhere with earlier | otherPair
    · refine Book.read_append grown (fun update member => ?_) currencyFrom currencyTo
      obtain ⟨_, _, _, _, rfl⟩ := (mem_collect_quotes collected).mp member
      exact earlier
    · have none : pairWrites (currencyFrom, currencyTo) updates = [] := by
        refine pairWrites_eq_nil_iff.mpr fun update member samePair => ?_
        obtain ⟨quote, quoteMember, uCurrencyTo, isCode, rfl⟩ :=
          (mem_collect_quotes collected).mp member
        cases samePair
        exact otherPair.elim (fun differs => differs rfl)
          fun unquoted => unquoted quote quoteMember isCode
      rw [Book.read, grown, pairWrites_append, none, List.append_nil, Book.read]
  rw [inOrder.getRate, part.getRate, same]

/-- A number that does not fit keeps the whole reply out. -/
theorem Transaction.Receives.unchanged
    (receives : transaction.Receives (latestReply servedAt (some base) date quotes))
    (dated : transaction.runtime.dateIn date = .ok day) {database : Database}
    (known : getCurrencyId (database.run transactions).currency (some base) =
      some uCurrencyFrom) (large : ¬ Fit (database.run transactions).currency quotes) :
    (database.run (transactions ++ [transaction])).toTables =
      (database.run transactions).toTables := by
  have asked := receives.updates dated known
  obtain ⟨pRequest, f, statement, _⟩ := receives
  cases outcome : collect (entryUpdate
      (transaction.context (database.run transactions).currency) uCurrencyFrom)
        (quotes.map quoteEntry) with
  | ok updates => exact absurd (exists_collect_quotes.mp ⟨updates, outcome⟩) large
  | error failure =>
      rw [outcome] at asked
      exact Database.run_unreadable statement asked

end

/-- A reply of the endpoint's format reaches a database whose rates come in the order of
their dates as a whole or not at all.  When the numbers under known codes fit, `get_rate`
returns each of them from then on, without its digits after the eighth place, and
answers everything else as before; when one of them does not, nothing is changed. -/
theorem published_rates_arrive (zone : TimeZone) (transactions : List Transaction)
    (transaction : Transaction) (servedAt : Timestamptz) (base date : String) (day : Date)
    (quotes : List Quote) (uCurrencyFrom : Uuid)
    (inOrder : InOrder zone (transactions ++ [transaction]))
    (receives : transaction.Receives (latestReply servedAt (some base) date quotes))
    (dated : transaction.runtime.dateIn date = .ok day)
    (known : getCurrencyId (Database.empty.run transactions).currency (some base) =
      some uCurrencyFrom) :
    (Fit (Database.empty.run transactions).currency quotes →
      (∀ quote ∈ quotes, ∀ uCurrencyTo,
        getCurrencyId (Database.empty.run transactions).currency (some quote.code) =
            some uCurrencyTo →
          ∀ scan instant, transaction.now ≤ instant → instant < zone.maxDate →
            (getRate scan (Database.empty.run (transactions ++ [transaction])).rate
              (some uCurrencyFrom) (some uCurrencyTo) (some instant)).bind Numeric.rational =
                some (truncate 8 quote.number)) ∧
      ∀ before now currencyFrom currencyTo instant,
        (instant < transaction.now ∨ currencyFrom ≠ uCurrencyFrom ∨ ∀ quote ∈ quotes,
          getCurrencyId (Database.empty.run transactions).currency (some quote.code) ≠
            some currencyTo) →
        getRate now (Database.empty.run (transactions ++ [transaction])).rate
            (some currencyFrom) (some currencyTo) (some instant) =
          getRate before (Database.empty.run transactions).rate (some currencyFrom)
            (some currencyTo) (some instant)) ∧
    (¬ Fit (Database.empty.run transactions).currency quotes →
      (Database.empty.run (transactions ++ [transaction])).toTables =
        (Database.empty.run transactions).toTables) := by
  refine ⟨fun fit => ⟨?_, ?_⟩, receives.unchanged dated known⟩
  · intro quote member uCurrencyTo isCode scan instant begun below
    rw [receives.getRate_quote inOrder dated known fit member isCode scan begun below]
    exact quote.stored_rational
  · intro before now currencyFrom currencyTo instant
    exact receives.getRate_elsewhere inOrder dated known fit before now

def servedQuotes : List Quote := [⟨"BTC", 38, 6⟩, ⟨"EUR", 946739, 6⟩, ⟨"RUB", 96245026, 6⟩]

def servedFields : List (String × Jsonb) :=
  latestReply (.onDay 9000) (some "USD") "2024-08-22" servedQuotes

theorem servedFields_uniqueKeys : (Jsonb.object servedFields).UniqueKeys := by
  refine .object _ (by decide) ?_
  intro field member
  simp only [servedFields, latestReply, List.mem_cons, List.not_mem_nil, or_false] at member
  rcases member with rfl | rfl | rfl | rfl | rfl
  · exact .string _
  · exact .string _
  · refine .object _ (by decide) ?_
    intro rate rateMember
    obtain ⟨quote, _, rfl⟩ := List.mem_map.mp rateMember
    exact .number _ _
  · exact .bool true
  · exact .number _ _

noncomputable def servedDelivery : Transaction where
  runtime := { replyRuntime servedFields servedFields_uniqueKeys with
    dateIn := fun text =>
      if text = "2024-08-22" then .ok 9000 else .error .invalidDatetimeFormat }
  zone := .utc
  httpFetch := (replyContext servedFields servedFields_uniqueKeys).httpFetch
  scan := .any
  now := .onDay 9000
  statement := .exchangeRateDone 1

theorem servedDelivery_receives : servedDelivery.Receives servedFields := by
  obtain ⟨bytes, text, unique, isResponse, converted, parsed⟩ :=
    replyRuntime_parses servedFields servedFields_uniqueKeys
  exact ⟨1, _, rfl, rfl, rfl, rfl, rfl, bytes, text, unique, isResponse, converted, parsed⟩

theorem inOrder_servedDelivery : InOrder .utc (openingTransactions ++ [servedDelivery]) := by
  refine ⟨?_, by decide, by decide⟩
  intro transaction member
  simp only [openingTransactions, List.cons_append, List.nil_append, List.mem_cons,
    List.not_mem_nil, or_false] at member
  rcases member with rfl | rfl | rfl <;> rfl

theorem published_rate_arrives :
    InOrder .utc (openingTransactions ++ [servedDelivery]) ∧
      servedDelivery.Receives servedFields ∧
      ∀ scan, (getRate scan (Database.empty.run (openingTransactions ++ [servedDelivery])).rate
        (some usd.id) (some rub.id) (some (.onDay 9001))).bind Numeric.rational =
          some (truncate 8 (fixed 96245026 6)) := by
  have fit : Fit (Database.empty.run openingTransactions).currency servedQuotes := by
    intro quote member _
    refine quote.natAbs_lt_iff.mp ?_
    simp only [servedQuotes, List.mem_cons, List.not_mem_nil, or_false] at member
    rcases member with rfl | rfl | rfl <;> decide
  have arrives := (published_rates_arrive .utc openingTransactions servedDelivery (.onDay 9000)
    "USD" "2024-08-22" 9000 servedQuotes usd.id inOrder_servedDelivery servedDelivery_receives
    (by simp [servedDelivery]) (by decide)).1 fit
  exact ⟨inOrder_servedDelivery, servedDelivery_receives, fun scan =>
    arrives.1 ⟨"RUB", 96245026, 6⟩ (by simp [servedQuotes]) rub.id (by decide) scan (.onDay 9001)
      (by decide) (by decide)⟩

/-! ## What the endpoint serves -/

theorem httpGetLatest_eq_ok {now : Timestamptz} {date : String} {params : Option Jsonb}
    {fields : List (String × Jsonb)} (served : httpGetLatest now date params = .ok fields) :
    ∃ base quotes, fields = latestReply now (some base) date quotes ∧
      ∀ quote ∈ quotes, |quote.number| < 10 ^ 9 ∧ truncate 8 quote.number = quote.number := by
  have exactly : ∀ quote : Quote, quote.scale ≤ 8 → quote.unscaled.natAbs < 10 ^ 9 →
      |quote.number| < 10 ^ 9 ∧ truncate 8 quote.number = quote.number := by
    intro quote short small
    refine ⟨quote.natAbs_lt_iff.mp (small.trans_le (Nat.pow_le_pow_right (by decide) (by omega))),
      ?_⟩
    have places : quote.scale - 8 = 0 := by omega
    rw [Quote.number, truncate_fixed, places, pow_zero, Int.tdiv_one, min_eq_left short]
  obtain ⟨r, _, answered⟩ := except_bind_eq_ok.mp served
  split at answered
  · rename_i isDollar
    obtain ⟨base, isBase, _⟩ := (holds_equal _ _).mp isDollar
    cases answered
    refine ⟨base, _, by rw [isBase], fun quote member => ?_⟩
    simp only [List.mem_cons, List.not_mem_nil, or_false] at member
    rcases member with rfl | rfl | rfl <;> exact exactly _ (by decide) (by decide)
  · split at answered
    · rename_i isBitcoin
      obtain ⟨base, isBase, _⟩ := (holds_equal _ _).mp isBitcoin
      cases answered
      refine ⟨base, _, by rw [isBase], fun quote member => ?_⟩
      simp only [List.mem_cons, List.not_mem_nil, or_false] at member
      rcases member with rfl | rfl | rfl <;> exact exactly _ (by decide) (by decide)
    · cases answered

/-- Whatever the endpoint answers to whatever parameters, its reply brings every rate that
it quotes for a known code into `get_rate`, to the last digit. -/
theorem served_rates_arrive (zone : TimeZone) (transactions : List Transaction)
    (transaction : Transaction) (servedAt : Timestamptz) (date : String) (day : Date)
    (params : Option Jsonb) (fields : List (String × Jsonb))
    (served : httpGetLatest servedAt date params = .ok fields)
    (inOrder : InOrder zone (transactions ++ [transaction]))
    (receives : transaction.Receives fields)
    (dated : transaction.runtime.dateIn date = .ok day) :
    ∃ base quotes, fields = latestReply servedAt (some base) date quotes ∧
      ∀ uCurrencyFrom, getCurrencyId (Database.empty.run transactions).currency (some base) =
          some uCurrencyFrom →
        ∀ quote ∈ quotes, ∀ uCurrencyTo,
          getCurrencyId (Database.empty.run transactions).currency (some quote.code) =
              some uCurrencyTo →
            ∀ scan instant, transaction.now ≤ instant → instant < zone.maxDate →
              (getRate scan (Database.empty.run (transactions ++ [transaction])).rate
                (some uCurrencyFrom) (some uCurrencyTo) (some instant)).bind Numeric.rational =
                  some quote.number := by
  obtain ⟨base, quotes, rfl, exactly⟩ := httpGetLatest_eq_ok served
  refine ⟨base, quotes, rfl, ?_⟩
  intro uCurrencyFrom known quote member uCurrencyTo isCode scan instant begun below
  have fit : Fit (Database.empty.run transactions).currency quotes := fun quote member _ =>
    (exactly quote member).1
  rw [receives.getRate_quote inOrder dated known fit member isCode scan begun below,
    ← (exactly quote member).2]
  exact quote.stored_rational

theorem served_rate_arrives :
    httpGetLatest (.onDay 9000) "2024-08-22" (some (.object [("base", .string "USD")])) =
        .ok servedFields ∧
      ∃ base quotes, servedFields = latestReply (.onDay 9000) (some base) "2024-08-22" quotes ∧
        ∀ uCurrencyFrom, getCurrencyId (Database.empty.run openingTransactions).currency
            (some base) = some uCurrencyFrom →
          ∀ quote ∈ quotes, ∀ uCurrencyTo,
            getCurrencyId (Database.empty.run openingTransactions).currency (some quote.code) =
                some uCurrencyTo →
              ∀ scan instant, .onDay 9000 ≤ instant → instant < TimeZone.utc.maxDate →
                (getRate scan (Database.empty.run (openingTransactions ++ [servedDelivery])).rate
                  (some uCurrencyFrom) (some uCurrencyTo) (some instant)).bind
                    Numeric.rational = some quote.number :=
  ⟨rfl, served_rates_arrive .utc openingTransactions servedDelivery (.onDay 9000) "2024-08-22" 9000
    (some (.object [("base", .string "USD")])) servedFields rfl inOrder_servedDelivery
    servedDelivery_receives (by simp [servedDelivery])⟩

end ApostolRates
