import ApostolRates.Book
import ApostolRates.Overlaps

/-!
# Databases whose rates come in the order of their dates

The database of such a run says what its book says, and the book is a log that is
only appended to.  So `get_rate` reads the log, no later transaction changes an
earlier answer, the query of the current rates has one row for each pair that was
ever given, and a callback is only undone when its reply cannot be read.
-/

set_option autoImplicit false

namespace ApostolRates

open ThreeValued ValidTime Rollback

def Book.run (book : Book) (transactions : List Transaction) : Book :=
  Rollback.run Book.step book transactions

/-! ## The log of a run -/

section
variable {zone : TimeZone} {book bookAfter : Book} {transaction : Transaction}

/-- A transaction appends to the log what it gives, and never takes anything out. -/
theorem Book.log_step (success : book.step transaction = .ok bookAfter) :
    ∃ updates, bookAfter.log = book.log ++ updates ∧
      (transaction.updates book.currency = .ok updates ∨ updates = []) := by
  have none : ∀ {after : Book}, after.log = book.log → ∃ updates, after.log = book.log ++ updates ∧
      (transaction.updates book.currency = .ok updates ∨ updates = []) := by
    intro after same
    exact ⟨[], by rw [same, List.append_nil], Or.inr rfl⟩
  have posted : ∀ {after : Book},
      (transaction.updates book.currency >>= book.post) = .ok after →
      ∃ updates, after.log = book.log ++ updates ∧
        (transaction.updates book.currency = .ok updates ∨ updates = []) := by
    intro after success
    obtain ⟨updates, asked, success⟩ := except_bind_eq_ok.mp success
    obtain ⟨_, rfl⟩ := Book.post_eq_ok.mp success
    exact ⟨updates, rfl, Or.inl asked⟩
  unfold Book.step at success
  split at success
  · obtain ⟨_, _, same⟩ := except_bind_eq_ok.mp success
    cases same
    exact none rfl
  · obtain ⟨_, _, same⟩ := except_bind_eq_ok.mp success
    cases same
    exact none rfl
  · obtain ⟨_, _, same⟩ := except_bind_eq_ok.mp success
    cases same
    exact none rfl
  · split at success
    · cases success
    · obtain ⟨_, _, same⟩ := except_bind_eq_ok.mp success
      cases same
      exact none rfl
  · cases outcome : transaction.updates book.currency >>= book.post with
    | error failure =>
        rw [outcome] at success
        cases success
        exact none rfl
    | ok after =>
        rw [outcome] at success
        cases success
        exact posted outcome
  · exact posted success
  · exact posted success
  · cases success
    exact none rfl

theorem Book.log_step_dated (success : book.step transaction = .ok bookAfter) :
    ∃ updates, bookAfter.log = book.log ++ updates ∧
      ∀ update ∈ updates, transaction.date = some update.date := by
  obtain ⟨updates, grown, asked | rfl⟩ := Book.log_step success
  · exact ⟨updates, grown, Transaction.updates_dated asked⟩
  · exact ⟨[], grown, fun _ member => absurd member List.not_mem_nil⟩

theorem Book.log_run (book : Book) (transactions : List Transaction) :
    ∃ updates, (book.run transactions).log = book.log ++ updates ∧
      ∀ update ∈ updates, update.date ∈ transactions.filterMap Transaction.date := by
  induction transactions using List.reverseRecOn with
  | nil => exact ⟨[], (List.append_nil _).symm, fun _ member => absurd member List.not_mem_nil⟩
  | append_singleton transactions transaction ih =>
      obtain ⟨updates, grown, dated⟩ := ih
      have earlier : ∀ update ∈ updates,
          update.date ∈ (transactions ++ [transaction]).filterMap Transaction.date := by
        intro update member
        rw [List.filterMap_append]
        exact List.mem_append_left _ (dated update member)
      rcases run_concat_cases Book.step book transactions transaction with
        ⟨_, _, same⟩ | success
      · exact ⟨updates, (congrArg Book.log same).trans grown, earlier⟩
      · obtain ⟨more, appended, moreDated⟩ := Book.log_step_dated success
        refine ⟨updates ++ more, ?_, ?_⟩
        · rw [← List.append_assoc, ← grown]
          exact appended
        · intro update member
          rcases List.mem_append.mp member with member | member
          · exact earlier update member
          · rw [List.filterMap_append]
            refine List.mem_append_right _ (List.mem_filterMap.mpr ⟨transaction, ?_⟩)
            exact ⟨List.mem_singleton_self _, moreDated update member⟩

theorem Book.log_run_append (book : Book) (earlier later : List Transaction) :
    ∃ updates, (book.run (earlier ++ later)).log = (book.run earlier).log ++ updates ∧
      ∀ update ∈ updates, update.date ∈ later.filterMap Transaction.date := by
  have split : book.run (earlier ++ later) = (book.run earlier).run later := by
    simp only [Book.run, Rollback.run, List.foldl_append]
  rw [split]
  exact Book.log_run _ later

theorem Book.date_mem {transactions : List Transaction} {update : Update}
    (member : update ∈ (Book.empty.run transactions).log) :
    update.date ∈ transactions.filterMap Transaction.date := by
  obtain ⟨updates, grown, dated⟩ := Book.log_run Book.empty transactions
  rw [grown, Book.empty, List.nil_append] at member
  exact dated update member

/-! ## The database of a run -/

theorem InOrder.of_prefix {earlier transactions : List Transaction}
    (inOrder : InOrder zone transactions) (isPrefix : earlier <+: transactions) :
    InOrder zone earlier := by
  have sub := isPrefix.sublist
  exact ⟨fun other member => inOrder.sameZone other (sub.subset member),
    fun date member => inOrder.below date ((sub.filterMap _).subset member),
    inOrder.ascending.sublist (sub.filterMap _)⟩

theorem InOrder.admits {transactions earlier : List Transaction}
    (inOrder : InOrder zone transactions) (isPrefix : earlier ++ [transaction] <+: transactions) :
    (Book.empty.run earlier).Admits zone transaction := by
  have part := inOrder.of_prefix isPrefix
  have isLast : transaction ∈ earlier ++ [transaction] := by simp
  refine ⟨part.sameZone transaction isLast, fun date hasDate => ⟨?_, fun update member => ?_⟩⟩
  · exact part.below date (List.mem_filterMap.mpr ⟨transaction, isLast, hasDate⟩)
  · have ascending := part.ascending
    rw [List.filterMap_append] at ascending
    exact (List.pairwise_append.mp ascending).2.2 update.date (Book.date_mem member) date
      (List.mem_filterMap.mpr ⟨transaction, List.mem_singleton_self _, hasDate⟩)

theorem represent_empty (zone : TimeZone) :
    Database.empty.toTables.Represent zone Book.empty :=
  ⟨rfl, fun _ => rfl⟩

theorem Database.matches_step {database : Database}
    (represent : database.toTables.Represent zone book) (admits : book.Admits zone transaction) :
    Matches (fun (after : Database) bookAfter => after.toTables.Represent zone bookAfter)
      (database.step transaction) (book.step transaction) := by
  have same := matches_execute represent database.references admits
  refine .of_ok (fun after success => same.forth (Database.step_eq_ok.mp success)) ?_
  intro bookAfter success
  obtain ⟨after, executed, _⟩ := same.back success
  exact ⟨⟨after, Transaction.execute_references database.references executed⟩,
    Database.step_eq_ok.mpr executed⟩

theorem InOrder.represent {transactions : List Transaction}
    (inOrder : InOrder zone transactions) :
    (Database.empty.run transactions).toTables.Represent zone (Book.empty.run transactions) :=
  run_matches Database.step Book.step
    (fun database book => database.toTables.Represent zone book) (Book.Admits zone)
    (fun _ _ _ admits represent => Database.matches_step represent admits)
    (represent_empty zone) transactions fun _ _ isPrefix => inOrder.admits isPrefix

theorem Book.Admits.ascending {log updates : List Update} (admits : book.Admits zone transaction)
    (grown : log = book.log ++ updates)
    (dated : ∀ update ∈ updates, transaction.date = some update.date)
    (before : book.log.Pairwise fun earlier later => earlier.date ≤ later.date) :
    log.Pairwise fun earlier later => earlier.date ≤ later.date := by
  rw [grown]
  refine List.pairwise_append.mpr ⟨before, ?_, fun earlier earlierMember later member =>
    (admits.2 later.date (dated later member)).2 earlier earlierMember⟩
  refine List.pairwise_of_forall_mem_list fun first firstMember second secondMember => ?_
  exact (Option.some.inj ((dated first firstMember).symm.trans (dated second secondMember))).le

theorem InOrder.log_ascending {transactions : List Transaction}
    (inOrder : InOrder zone transactions) :
    (Book.empty.run transactions).log.Pairwise fun earlier later => earlier.date ≤ later.date := by
  induction transactions using List.reverseRecOn with
  | nil => exact .nil
  | append_singleton transactions last ih =>
      have before := ih (inOrder.of_prefix (List.prefix_append _ _))
      rcases run_concat_cases Book.step Book.empty transactions last with
        ⟨_, _, same⟩ | success
      · rw [Book.run, same]
        exact before
      · obtain ⟨updates, appended, dated⟩ := Book.log_step_dated success
        exact (inOrder.admits (List.prefix_refl _)).ascending appended dated before

theorem dated_pairWrites {log : List Update} (pair : Uuid × Uuid)
    (ascending : log.Pairwise fun earlier later => earlier.date ≤ later.date) :
    Dated (pairWrites pair log) :=
  List.pairwise_map.mpr (ascending.sublist List.filter_sublist)

/-- `get_rate` reads the log of the pair. -/
theorem getRate_of_chain {table : RateTable} {log : List Update} {currencyFrom currencyTo : Uuid}
    (isChain : table.timeline (currencyFrom, currencyTo) =
      chain zone.maxDate (entries (pairWrites (currencyFrom, currencyTo) log)))
    (ascending : log.Pairwise fun earlier later => earlier.date ≤ later.date)
    (scan : Scan) {instant : Timestamptz} (below : instant < zone.maxDate) :
    ApostolRates.getRate scan table (some currencyFrom) (some currencyTo) (some instant) =
      (latest instant (pairWrites (currencyFrom, currencyTo) log)).map Prod.snd := by
  rw [getRate_chain scan (ascending_entries _) isChain below,
    lookUp_entries, asOfEntry_eq_latest instant (dated_pairWrites _ ascending)]

theorem Tables.Represent.getRate {tables : Tables} (represent : tables.Represent zone book)
    (ascending : book.log.Pairwise fun earlier later => earlier.date ≤ later.date)
    (scan : Scan) (currencyFrom currencyTo : Uuid) {instant : Timestamptz}
    (below : instant < zone.maxDate) :
    ApostolRates.getRate scan tables.rate (some currencyFrom) (some currencyTo) (some instant) =
      book.read currencyFrom currencyTo instant :=
  getRate_of_chain (represent.logs (currencyFrom, currencyTo)) ascending scan below

theorem InOrder.selectRows_eq_zero {transactions : List Transaction}
    (inOrder : InOrder zone transactions) (currencyFrom currencyTo : Uuid)
    {instant : Timestamptz} (late : zone.maxDate ≤ instant) :
    selectRows (Database.empty.run transactions).rate.rows (some currencyFrom) (some currencyTo)
      (some instant) = 0 := by
  refine selectRows_chain_eq_zero (inOrder.represent.logs (currencyFrom, currencyTo))
    (ascending_entries _) (fun entry member => ?_) (Or.inr late)
  obtain ⟨write, written, same⟩ := List.mem_map.mp
    ((dates_entries _ entry.1).mp (List.mem_map_of_mem member))
  obtain ⟨update, updateMember, _, rfl⟩ := mem_pairWrites.mp written
  rw [← same]
  exact inOrder.below _ (Book.date_mem updateMember)

theorem InOrder.getRate {transactions : List Transaction} (inOrder : InOrder zone transactions)
    (scan : Scan) (currencyFrom currencyTo : Uuid) (instant : Timestamptz) :
    ApostolRates.getRate scan (Database.empty.run transactions).rate (some currencyFrom)
        (some currencyTo) (some instant) =
      if instant < zone.maxDate then
        (Book.empty.run transactions).read currencyFrom currencyTo instant
      else none := by
  split
  · rename_i below
    exact inOrder.represent.getRate inOrder.log_ascending scan currencyFrom currencyTo below
  · rename_i late
    by_contra found
    exact (getRate_ne_none_iff scan _ _ _ _).mp found
      (inOrder.selectRows_eq_zero currencyFrom currencyTo (not_lt.mp late))

end

/-! ## One run -/

theorem inOrder_deliveries :
    InOrder .utc (openingTransactions ++ [firstDelivery] ++ [secondDelivery]) := by
  refine ⟨?_, by decide, by decide⟩
  intro transaction member
  simp only [openingTransactions, List.cons_append, List.nil_append, List.mem_cons,
    List.not_mem_nil, or_false] at member
  rcases member with rfl | rfl | rfl | rfl <;> rfl

theorem inOrder_firstDelivery : InOrder .utc (openingTransactions ++ [firstDelivery]) :=
  inOrder_deliveries.of_prefix (List.prefix_append _ _)

/-! ## What the database of a run answers -/

/-- With rates in the order of their dates the database is its book: the same
currencies, the same transactions succeed, and `get_rate` is the last entry of the
log for the pair that is not dated after the instant. -/
theorem database_is_book (zone : TimeZone) (transactions : List Transaction)
    (inOrder : InOrder zone transactions) :
    (Database.empty.run transactions).currency = (Book.empty.run transactions).currency ∧
      (∀ earlier transaction, earlier ++ [transaction] <+: transactions →
        ((∃ after, (Database.empty.run earlier).step transaction = .ok after) ↔
          ∃ after, (Book.empty.run earlier).step transaction = .ok after)) ∧
      ∀ scan currencyFrom currencyTo instant,
        getRate scan (Database.empty.run transactions).rate (some currencyFrom)
            (some currencyTo) (some instant) =
          if instant < zone.maxDate then
            (Book.empty.run transactions).read currencyFrom currencyTo instant
          else none := by
  refine ⟨inOrder.represent.currency, fun earlier transaction isPrefix => ?_, inOrder.getRate⟩
  have part := inOrder.of_prefix ((List.prefix_append earlier [transaction]).trans isPrefix)
  exact (Database.matches_step part.represent (inOrder.admits isPrefix)).ok_iff

theorem deliveries_are_book :
    InOrder .utc (openingTransactions ++ [firstDelivery] ++ [secondDelivery]) ∧
      ∀ scan, getRate scan
        (Database.empty.run (openingTransactions ++ [firstDelivery] ++ [secondDelivery])).rate
        (some usd.id) (some rub.id) (some (.onDay 9000)) = some (.finite 96245026 6) :=
  ⟨inOrder_deliveries, fun scan =>
    (database_is_book .utc _ inOrder_deliveries).2.2 scan usd.id rub.id (.onDay 9000)⟩

theorem Book.read_append {book after : Book} {updates : List Update} {instant : Timestamptz}
    (grown : after.log = book.log ++ updates) (later : ∀ update ∈ updates, instant < update.date)
    (currencyFrom currencyTo : Uuid) :
    after.read currencyFrom currencyTo instant = book.read currencyFrom currencyTo instant := by
  unfold Book.read
  rw [grown, pairWrites_append, latest_append_of_later]
  intro write written
  obtain ⟨update, member, _, rfl⟩ := mem_pairWrites.mp written
  exact later update member

/-- What `get_rate` has once answered for an instant it answers for ever, as long as
all later rates are dated after the instant. -/
theorem past_answers_stand (zone : TimeZone) (earlier later : List Transaction)
    (inOrder : InOrder zone (earlier ++ later)) (instant : Timestamptz)
    (after : ∀ date ∈ later.filterMap Transaction.date, instant < date) (before now : Scan)
    (currencyFrom currencyTo : Uuid) :
    getRate now (Database.empty.run (earlier ++ later)).rate (some currencyFrom)
        (some currencyTo) (some instant) =
      getRate before (Database.empty.run earlier).rate (some currencyFrom) (some currencyTo)
        (some instant) := by
  have part := inOrder.of_prefix (List.prefix_append earlier later)
  obtain ⟨updates, grown, dated⟩ := Book.log_run_append Book.empty earlier later
  rw [inOrder.getRate, part.getRate,
    Book.read_append grown fun update member => after update.date (dated update member)]

theorem first_answer_stands :
    InOrder .utc (openingTransactions ++ [firstDelivery] ++ [secondDelivery]) ∧
      (∀ date ∈ [secondDelivery].filterMap Transaction.date, .onDay 9000 < date) ∧
      ∀ before now, getRate now
          (Database.empty.run (openingTransactions ++ [firstDelivery] ++ [secondDelivery])).rate
          (some usd.id) (some rub.id) (some (.onDay 9000)) =
        getRate before (Database.empty.run (openingTransactions ++ [firstDelivery])).rate
          (some usd.id) (some rub.id) (some (.onDay 9000)) := by
  have after : ∀ date ∈ [secondDelivery].filterMap Transaction.date, .onDay 9000 < date := by
    decide
  exact ⟨inOrder_deliveries, after, fun before now => past_answers_stand .utc
    (openingTransactions ++ [firstDelivery]) [secondDelivery] inOrder_deliveries (.onDay 9000) after
    before now usd.id rub.id⟩

/-! ## Callbacks -/

section
variable {zone : TimeZone} {book : Book} {transaction : Transaction} {pRequest : Uuid}
variable {updates : List Update}

theorem pairWrites_of_distinct {update : Update} (distinct : (updates.map Update.pair).Nodup)
    (member : update ∈ updates) :
    pairWrites update.pair updates = [(update.date, update.value)] := by
  induction updates with
  | nil => exact absurd member List.not_mem_nil
  | cons first rest ih =>
      rw [List.map_cons, List.nodup_cons] at distinct
      rw [← List.singleton_append, pairWrites_append]
      rcases List.mem_cons.mp member with rfl | later
      · have others : pairWrites update.pair rest = [] :=
          pairWrites_eq_nil_iff.mpr fun other otherMember same =>
            distinct.1 (same ▸ List.mem_map_of_mem otherMember)
        rw [pairWrites_singleton, others, List.append_nil]
      · have differs : update.pair ≠ first.pair := fun same =>
          distinct.1 (same ▸ List.mem_map_of_mem later)
        rw [pairWrites_singleton_of_ne differs, List.nil_append, ih distinct.2 later]

theorem Book.read_given {after : Book} {update : Update} {instant : Timestamptz}
    (grown : after.log = book.log ++ updates) (distinct : (updates.map Update.pair).Nodup)
    (member : update ∈ updates) (begun : update.date ≤ instant) :
    after.read update.currencyFrom update.currencyTo instant = some update.value := by
  have written := pairWrites_of_distinct distinct member
  rw [Update.pair] at written
  rw [Book.read, grown, pairWrites_append, written, latest_concat, if_pos begun]
  rfl

theorem Transaction.updates_known {currency : CurrencyTable}
    (statement : transaction.statement = .exchangeRateDone pRequest)
    (asked : transaction.updates currency = .ok updates) :
    ∀ update ∈ updates, update.Known currency := by
  rw [Transaction.updates, statement] at asked
  obtain ⟨_, each⟩ := replyUpdates_spec asked
  exact fun update member => (each update member).2.1

theorem Book.step_callback (statement : transaction.statement = .exchangeRateDone pRequest)
    (asked : transaction.updates book.currency = .ok updates) :
    book.step transaction = .ok { book with log := book.log ++ updates } := by
  have posted : book.post updates = .ok { book with log := book.log ++ updates } :=
    Book.post_eq_ok.mpr ⟨Transaction.updates_known statement asked, rfl⟩
  unfold Book.step
  rw [statement, asked]
  exact congrArg (fun outcome => Except.ok (undoing book outcome)) posted

theorem Book.step_unreadable {failure : PgError}
    (statement : transaction.statement = .exchangeRateDone pRequest)
    (asked : transaction.updates book.currency = .error failure) :
    book.step transaction = .ok book := by
  unfold Book.step
  rw [statement, asked]
  rfl

theorem Book.run_concat_of_ok {transactions : List Transaction} {after : Book}
    (success : (book.run transactions).step transaction = .ok after) :
    book.run (transactions ++ [transaction]) = after := by
  rw [Book.run, run_concat]
  exact settle_ok _ _ _ after success

end

/-- With rates in the order of their dates a callback is undone only when its reply
cannot be read, never because a call of `update_rate` fails, and every rate of a reply
that can be read is what `get_rate` returns from then on. -/
theorem callback_undone_only_if_unreadable (zone : TimeZone) (transactions : List Transaction)
    (transaction : Transaction) (pRequest : Uuid)
    (statement : transaction.statement = .exchangeRateDone pRequest)
    (inOrder : InOrder zone (transactions ++ [transaction])) :
    ((∃ rate, exchangeRateBlock
          (transaction.context (Database.empty.run transactions).currency)
          (Database.empty.run transactions).rate
          ((transaction.httpFetch pRequest).getD Fetch.null) = .ok rate) ↔
        ∃ updates, replyUpdates
          (transaction.context (Database.empty.run transactions).currency)
          ((transaction.httpFetch pRequest).getD Fetch.null) = .ok updates) ∧
      ∀ updates, replyUpdates
          (transaction.context (Database.empty.run transactions).currency)
          ((transaction.httpFetch pRequest).getD Fetch.null) = .ok updates →
        ∀ update ∈ updates, ∀ scan,
          getRate scan (Database.empty.run (transactions ++ [transaction])).rate
            (some update.currencyFrom) (some update.currencyTo) (some transaction.now) =
              some update.value := by
  have represent := (inOrder.of_prefix (List.prefix_append transactions [transaction])).represent
  have admits := inOrder.admits (List.prefix_refl _)
  have asks : ∀ updates, replyUpdates
      (transaction.context (Database.empty.run transactions).currency)
      ((transaction.httpFetch pRequest).getD Fetch.null) = .ok updates ↔
        transaction.updates (Book.empty.run transactions).currency = .ok updates := by
    intro updates
    rw [Transaction.updates, statement, represent.currency]
  have isNow : transaction.date = some transaction.now := by rw [Transaction.date, statement]
  have below : transaction.now < zone.maxDate := (admits.2 _ isNow).1
  constructor
  · simp only [exchangeRateBlock_two_phase, asks]
    constructor
    · rintro ⟨_, updates, asked, _⟩
      exact ⟨updates, asked⟩
    · rintro ⟨updates, asked⟩
      obtain ⟨rate, written, _⟩ := (matches_post represent
        (Database.empty.run transactions).references admits asked).back
        (Book.post_eq_ok.mpr ⟨Transaction.updates_known statement asked, rfl⟩)
      rw [← represent.currency] at written
      exact ⟨rate, updates, asked, written⟩
  · intro updates asked update member scan
    obtain ⟨_, each⟩ := replyUpdates_spec asked
    have after := Book.run_concat_of_ok (Book.step_callback statement ((asks updates).mp asked))
    rw [inOrder.getRate, if_pos below, after]
    exact Book.read_given rfl (replyUpdates_pairs asked) member (each update member).2.2.1.le

theorem first_delivery_read :
    InOrder .utc (openingTransactions ++ [firstDelivery]) ∧
      (∃ rate, exchangeRateBlock
        (firstDelivery.context (Database.empty.run openingTransactions).currency)
        (Database.empty.run openingTransactions).rate (latestFetch plainText) = .ok rate) ∧
      ∀ scan, getRate scan (Database.empty.run (openingTransactions ++ [firstDelivery])).rate
        (some usd.id) (some rub.id) (some (.onDay 9000)) = some (.finite 96245026 6) := by
  have read : replyUpdates
      (firstDelivery.context (Database.empty.run openingTransactions).currency)
      ((firstDelivery.httpFetch 1).getD Fetch.null) = .ok [firstRate] := rfl
  obtain ⟨succeeds, given⟩ := callback_undone_only_if_unreadable .utc openingTransactions
    firstDelivery 1 rfl inOrder_firstDelivery
  exact ⟨inOrder_firstDelivery, succeeds.mpr ⟨_, read⟩,
    given _ read firstRate (List.mem_singleton_self _)⟩

/-! ## Rates that are given again -/

theorem Book.read_append_same {book after : Book} {updates : List Update}
    (grown : after.log = book.log ++ updates)
    (ascending : after.log.Pairwise fun earlier later => earlier.date ≤ later.date)
    (inForce : ∀ update ∈ updates,
      book.read update.currencyFrom update.currencyTo update.date = some update.value)
    (currencyFrom currencyTo : Uuid) (instant : Timestamptz) :
    after.read currencyFrom currencyTo instant = book.read currencyFrom currencyTo instant := by
  have dated := dated_pairWrites (currencyFrom, currencyTo) ascending
  unfold Book.read
  rw [grown, pairWrites_append] at dated ⊢
  refine latest_append_same instant dated fun write written => ?_
  obtain ⟨update, member, samePair, rfl⟩ := mem_pairWrites.mp written
  have read := inForce update member
  rw [Book.read, show (update.currencyFrom, update.currencyTo) = (currencyFrom, currencyTo) from
    samePair] at read
  exact read

theorem InOrder.read_unchanged {zone : TimeZone} {transactions : List Transaction}
    {again : Transaction} (inOrder : InOrder zone (transactions ++ [again]))
    (inForce : ∀ updates, again.updates (Book.empty.run transactions).currency = .ok updates →
      ∀ update ∈ updates, (Book.empty.run transactions).read update.currencyFrom
        update.currencyTo update.date = some update.value)
    (currencyFrom currencyTo : Uuid) (instant : Timestamptz) :
    (Book.empty.run (transactions ++ [again])).read currencyFrom currencyTo instant =
      (Book.empty.run transactions).read currencyFrom currencyTo instant := by
  rcases run_concat_cases Book.step Book.empty transactions again with ⟨_, _, same⟩ | success
  · rw [Book.run, same]
    rfl
  · obtain ⟨updates, grown, asked⟩ := Book.log_step success
    refine Book.read_append_same grown inOrder.log_ascending ?_ currencyFrom currencyTo instant
    rcases asked with asked | rfl
    · exact inForce updates asked
    · exact fun _ member => absurd member List.not_mem_nil

/-- A transaction that gives nothing but the rates that `get_rate` returns anyway
changes no answer. -/
theorem rates_in_force_change_nothing (zone : TimeZone) (transactions : List Transaction)
    (again : Transaction) (inOrder : InOrder zone (transactions ++ [again]))
    (inForce : ∀ updates, again.updates (Database.empty.run transactions).currency = .ok updates →
      ∀ update ∈ updates, ∃ scan, getRate scan (Database.empty.run transactions).rate
        (some update.currencyFrom) (some update.currencyTo) (some update.date) =
          some update.value)
    (before now : Scan) (currencyFrom currencyTo : Uuid) (instant : Timestamptz) :
    getRate now (Database.empty.run (transactions ++ [again])).rate (some currencyFrom)
        (some currencyTo) (some instant) =
      getRate before (Database.empty.run transactions).rate (some currencyFrom)
        (some currencyTo) (some instant) := by
  have part := inOrder.of_prefix (List.prefix_append transactions [again])
  rw [inOrder.getRate, part.getRate, inOrder.read_unchanged]
  intro updates asked update member
  rw [← part.represent.currency] at asked
  obtain ⟨scan, found⟩ := inForce updates asked update member
  rw [part.getRate] at found
  split at found
  · exact found
  · cases found

theorem same_rates_change_nothing :
    InOrder .utc (openingTransactions ++ [firstDelivery] ++ [secondDelivery]) ∧
      ∀ before now instant, getRate now
          (Database.empty.run (openingTransactions ++ [firstDelivery] ++ [secondDelivery])).rate
          (some usd.id) (some rub.id) (some instant) =
        getRate before (Database.empty.run (openingTransactions ++ [firstDelivery])).rate
          (some usd.id) (some rub.id) (some instant) := by
  refine ⟨inOrder_deliveries, fun before now instant => rates_in_force_change_nothing .utc
    (openingTransactions ++ [firstDelivery]) secondDelivery inOrder_deliveries
    (fun updates asked update member => ?_) before now usd.id rub.id instant⟩
  have read : secondDelivery.updates
      (Database.empty.run (openingTransactions ++ [firstDelivery])).currency =
        .ok [firstRate.redate (.onDay 9001)] := rfl
  rw [read] at asked
  cases asked
  rw [List.mem_singleton.mp member]
  exact ⟨.any, inOrder_firstDelivery.getRate .any usd.id rub.id (.onDay 9001)⟩

/-- A reply that is delivered twice in a row leaves every answer of `get_rate` what it
was after the first time. -/
theorem redelivery_changes_nothing (zone : TimeZone) (transactions : List Transaction)
    (first second : Transaction) (firstRequest secondRequest : Uuid)
    (isFirst : first.statement = .exchangeRateDone firstRequest)
    (isSecond : second.statement = .exchangeRateDone secondRequest)
    (sameRuntime : second.runtime = first.runtime)
    (sameReply : second.httpFetch secondRequest = first.httpFetch firstRequest)
    (inOrder : InOrder zone (transactions ++ [first] ++ [second])) (before now : Scan)
    (currencyFrom currencyTo : Uuid) (instant : Timestamptz) :
    getRate now (Database.empty.run (transactions ++ [first] ++ [second])).rate
        (some currencyFrom) (some currencyTo) (some instant) =
      getRate before (Database.empty.run (transactions ++ [first])).rate (some currencyFrom)
        (some currencyTo) (some instant) := by
  have part := inOrder.of_prefix (List.prefix_append (transactions ++ [first]) [second])
  have admits := inOrder.admits (List.prefix_refl _)
  have redated : second.updates (Book.empty.run transactions).currency =
      (first.updates (Book.empty.run transactions).currency).map
        (List.map (Update.redate second.now)) := by
    rw [Transaction.updates, isSecond, Transaction.updates, isFirst]
    dsimp only
    rw [sameReply]
    exact replyUpdates_redate (first.context _) (second.context _) sameRuntime rfl _
  have isNow : second.date = some second.now := by rw [Transaction.date, isSecond]
  rw [inOrder.getRate, part.getRate, inOrder.read_unchanged]
  intro updates asked update member
  cases outcome : first.updates (Book.empty.run transactions).currency with
  | error failure =>
      -- neither delivery can be read
      rw [Book.run_concat_of_ok (Book.step_unreadable isFirst outcome), redated, outcome] at asked
      cases asked
  | ok given =>
      have after := Book.run_concat_of_ok (Book.step_callback isFirst outcome)
      rw [after, redated, outcome] at asked
      obtain ⟨_, same, rfl⟩ := except_map_eq_ok.mp asked
      cases same
      obtain ⟨earlier, earlierMember, rfl⟩ := List.mem_map.mp member
      have distinct : (given.map Update.pair).Nodup := by
        rw [Transaction.updates, isFirst] at outcome
        exact replyUpdates_pairs outcome
      have begun : earlier.date ≤ second.now := by
        refine (admits.2 _ isNow).2 earlier ?_
        rw [after]
        exact List.mem_append_right _ earlierMember
      rw [after]
      change Book.read _ earlier.currencyFrom earlier.currencyTo second.now = some earlier.value
      exact Book.read_given rfl distinct earlierMember begun

theorem second_delivery_changes_nothing :
    InOrder .utc (openingTransactions ++ [firstDelivery] ++ [secondDelivery]) ∧
      ∀ before now currencyFrom currencyTo instant, getRate now
          (Database.empty.run (openingTransactions ++ [firstDelivery] ++ [secondDelivery])).rate
          (some currencyFrom) (some currencyTo) (some instant) =
        getRate before (Database.empty.run (openingTransactions ++ [firstDelivery])).rate
          (some currencyFrom) (some currencyTo) (some instant) :=
  ⟨inOrder_deliveries, redelivery_changes_nothing .utc openingTransactions firstDelivery
    secondDelivery 1 1 rfl rfl rfl rfl inOrder_deliveries⟩

/-! ## The current rates -/

theorem selectRows_eq_covering (rate : RateTable) (pair : Uuid × Uuid) (instant : Timestamptz) :
    selectRows rate.rows (some pair.1) (some pair.2) (some instant) =
      (covering instant (rate.timeline pair)).map (rowOf pair) := by
  rw [selectRows_eq, pairRows_eq, Multiset.filter_map]
  rfl

/-- With rates in the order of their dates and none of them after the present, the
query of the current rates has one row for each pair that was ever given and no other:
the last value given, from its date to `max_date()`, under codes that
`get_currency_id` leads back to the currencies of the pair. -/
theorem current_rates_are_last (zone : TimeZone) (transactions : List Transaction)
    (now : Timestamptz) (inOrder : InOrder zone transactions)
    (past : ∀ date ∈ transactions.filterMap Transaction.date, date ≤ now)
    (below : now < zone.maxDate) :
    (∀ pair, ((currentRates (Database.empty.run transactions).currency
          (Database.empty.run transactions).rate now).filter fun row =>
            row.rateRow.pair = pair).map RatesRow.rateRow =
        (((pairWrites pair (Book.empty.run transactions).log).getLast?.map fun write =>
          (⟨pair.1, pair.2, write.2, write.1, zone.maxDate⟩ : RateRow)).toList :
            Multiset RateRow)) ∧
      ∀ row ∈ currentRates (Database.empty.run transactions).currency
          (Database.empty.run transactions).rate now,
        getCurrencyId (Database.empty.run transactions).currency (some row.currencyFromCode) =
            some row.currencyFrom ∧
          getCurrencyId (Database.empty.run transactions).currency (some row.currencyToCode) =
            some row.currencyTo := by
  refine ⟨fun pair => ?_, fun row member => rates_codes (Multiset.mem_of_mem_filter member)⟩
  have begun : ∀ entry ∈ entries (pairWrites pair (Book.empty.run transactions).log),
      entry.1 ≤ now := by
    intro entry member
    obtain ⟨write, written, same⟩ := List.mem_map.mp
      ((dates_entries _ entry.1).mp (List.mem_map_of_mem member))
    obtain ⟨update, updateMember, _, rfl⟩ := mem_pairWrites.mp written
    exact same ▸ past _ (Book.date_mem updateMember)
  refine (ratesInForce_map_rateRow _ _ (Database.empty.run transactions).references
    pair.1 pair.2 now).trans ?_
  rw [selectRows_eq_covering, inOrder.represent.logs pair, covering_chain_of_all_le begun below,
    getLast?_entries (dated_pairWrites pair inOrder.log_ascending), Multiset.map_coe]
  cases (pairWrites pair (Book.empty.run transactions).log).getLast? <;> rfl

theorem current_rate_of_delivery :
    InOrder .utc (openingTransactions ++ [firstDelivery]) ∧
      (∀ date ∈ (openingTransactions ++ [firstDelivery]).filterMap Transaction.date,
        date ≤ .onDay 9000) ∧ (.onDay 9000 : Timestamptz) < TimeZone.utc.maxDate ∧
      ((currentRates (Database.empty.run (openingTransactions ++ [firstDelivery])).currency
        (Database.empty.run (openingTransactions ++ [firstDelivery])).rate
        (.onDay 9000)).filter fun row => row.rateRow.pair = (usd.id, rub.id)).map
          RatesRow.rateRow =
        {⟨usd.id, rub.id, .finite 96245026 6, .onDay 9000, TimeZone.utc.maxDate⟩} := by
  have past : ∀ date ∈ (openingTransactions ++ [firstDelivery]).filterMap Transaction.date,
      date ≤ .onDay 9000 := by decide
  have below : (.onDay 9000 : Timestamptz) < TimeZone.utc.maxDate := by decide
  exact ⟨inOrder_firstDelivery, past, below,
    (current_rates_are_last .utc _ (.onDay 9000) inOrder_firstDelivery past below).1
      (usd.id, rub.id)⟩

end ApostolRates
