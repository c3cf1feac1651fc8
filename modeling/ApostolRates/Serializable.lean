import ApostolRates.Concurrency
import ApostolRates.InOrder
import ApostolRates.Isolation

/-!
# One after the other

Transactions that give rates for different pairs, callbacks with different bases for
example, may run side by side: what is committed is what the committed ones leave when
they run one after the other, in whatever order.
-/

set_option autoImplicit false

namespace ApostolRates

open ThreeValued ValidTime Rollback Versions Shards

section
variable {zone : TimeZone} {currency : CurrencyTable} {rate : RateTable}
variable {scripts : Session → List (Except PgError Update)} {sessions : Sessions}
variable {session : Session}

def playAlone (zone : TimeZone) (currency : CurrencyTable)
    (scripts : Session → List (Except PgError Update)) (scans : Session → Scan)
    (table : RateTable) (session : Session) : Except PgError RateTable :=
  ((scripts session).filterMap Except.toOption).foldlM
    (writeWith zone currency (scans session)) table

/-- Sessions that can run alone can run one after the other, and each leaves for its
pairs what it leaves alone. -/
theorem Apart.play (apart : Apart scripts) {scans : Session → Scan}
    {alone : Session → RateTable} (order : List Session) (nodup : order.Nodup)
    (plays : ∀ session ∈ order,
      playAlone zone currency scripts scans rate session = .ok (alone session)) :
    ∃ serial, order.foldlM (playAlone zone currency scripts scans) rate = .ok serial ∧
      (∀ session ∈ order, ∀ pair, Owns scripts session pair →
        serial.timeline pair = (alone session).timeline pair) ∧
      ∀ pair, (∀ session ∈ order, ¬ Owns scripts session pair) →
        serial.timeline pair = rate.timeline pair := by
  induction order using List.reverseRecOn with
  | nil =>
      exact ⟨rate, rfl, fun _ member => absurd member List.not_mem_nil, fun _ _ => rfl⟩
  | append_singleton earlier session ih =>
      rw [List.nodup_append] at nodup
      obtain ⟨before, played, own, others⟩ := ih nodup.1 fun other member =>
        plays other (List.mem_append_left _ member)
      have isNew : ∀ other ∈ earlier, other ≠ session := fun other member =>
        nodup.2.2 other member session (List.mem_singleton_self _)
      have owns : ∀ update ∈ (scripts session).filterMap Except.toOption, ∃ pair,
          some update.pair = some pair ∧ Owns scripts session pair := by
        intro update member
        obtain ⟨attempt, attemptMember, isUpdate⟩ := List.mem_filterMap.mp member
        cases attempt with
        | error failure => cases isUpdate
        | ok attempt =>
            cases isUpdate
            exact ⟨_, rfl, update, attemptMember, rfl⟩
      have untouched : ∀ pair, Owns scripts session pair →
          rate.timeline pair = before.timeline pair := fun pair owned =>
        (others pair fun other member =>
          apart.others session other (isNew other member).symm pair owned).symm
      obtain ⟨after, success, kept⟩ := (pairs_local zone currency (scans session)).loop_parts
        owns untouched (plays session (by simp))
      refine ⟨after, ?_, ?_, ?_⟩
      · rw [List.foldlM_append, played]
        exact loop_cons_ok.mpr ⟨after, success, rfl⟩
      · intro other member pair owned
        rcases List.mem_append.mp member with isEarlier | isLast
        · have outside := apart.others other session (isNew other isEarlier) pair owned
          rw [← own other isEarlier pair owned]
          refine (pairs_local zone currency (scans session)).loop_frame ?_ success
          intro update updateMember isPair
          obtain ⟨_, same, owner⟩ := owns update updateMember
          exact outside (Option.some.inj (isPair.symm.trans same) ▸ owner)
        · rw [List.mem_singleton.mp isLast] at owned ⊢
          exact kept pair owned
      · intro pair unowned
        rw [← others pair fun other member => unowned other (List.mem_append_left _ member)]
        refine (pairs_local zone currency (scans session)).loop_frame ?_ success
        intro update updateMember isPair
        obtain ⟨_, same, owner⟩ := owns update updateMember
        exact unowned session (by simp) (Option.some.inj (isPair.symm.trans same) ▸ owner)

/-- Whatever the order of the steps, the committed rows are those that the committed
sessions leave one after the other, in any order. -/
theorem Sessions.Inv.serial (inv : sessions.Inv zone currency rate scripts)
    (apart : Apart scripts) :
    ∃ scans : Session → Scan, ∀ order : List Session, order.Nodup →
      (∀ session, session ∈ order ↔ sessions.world.phase session = .committed) →
        ∃ serial, order.foldlM (playAlone zone currency scripts scans) rate = .ok serial ∧
          serial.rows = committedRows sessions.world.heap := by
  have chosen : ∀ session, ∃ (scan : Scan) (table : RateTable),
      sessions.world.phase session = .committed →
        ((scripts session).filterMap Except.toOption).foldlM (writeWith zone currency scan) rate =
            .ok table ∧
          ∀ pair, Owns scripts session pair →
            rowsIn (settled RateRow.pair pair sessions.world.heap) = pairRows table.rows pair := by
    intro session
    by_cases committed : sessions.world.phase session = .committed
    · obtain ⟨scan, updates, table, script, loop, rows⟩ := inv.committed session committed
      refine ⟨scan, table, fun _ => ⟨?_, rows⟩⟩
      rw [script, filterMap_toOption_ok]
      exact loop
    · exact ⟨.any, rate, fun contrary => absurd contrary committed⟩
  choose scans alone plays using chosen
  refine ⟨scans, fun order nodup isOrder => ?_⟩
  obtain ⟨serial, played, own, others⟩ :=
    apart.play order nodup fun session member => (plays session ((isOrder session).mp member)).1
  refine ⟨serial, played, rows_eq_of_timelines fun pair => ?_⟩
  have isSettled : timelineOf (committedRows sessions.world.heap) pair =
      (rowsIn (settled RateRow.pair pair sessions.world.heap)).map RateRow.period := by
    rw [rowsIn_settled]
    rfl
  rw [isSettled]
  by_cases owner : ∃ session ∈ order, Owns scripts session pair
  · obtain ⟨session, member, owned⟩ := owner
    rw [(plays session ((isOrder session).mp member)).2 pair owned]
    exact own session member pair owned
  · push Not at owner
    rw [inv.kept pair fun session owned committed =>
      owner session ((isOrder session).mpr committed) owned]
    exact others pair owner

end

/-! ## Transactions -/

/-- Transactions on the rates in one time zone, no two of which give the same pair. -/
structure SideBySide (zone : TimeZone) (currency : CurrencyTable)
    (transactions : Session → Transaction) : Prop where
  sameZone : ∀ session, (transactions session).zone = zone
  onRates : ∀ session, (transactions session).OnRates
  apart : ∀ session other, session ≠ other → ∀ update update',
    .ok update ∈ (transactions session).calls currency →
    .ok update' ∈ (transactions other).calls currency → update.pair ≠ update'.pair

def Sessions.opened (world : World) (currency : CurrencyTable)
    (transactions : Session → Transaction) : Sessions :=
  ⟨world, fun session => (transactions session).calls currency⟩

def Transaction.withScan (transaction : Transaction) (scan : Scan) : Transaction :=
  { transaction with scan := scan }

section
variable {zone : TimeZone} {currency : CurrencyTable} {transactions : Session → Transaction}

theorem SideBySide.areApart (beside : SideBySide zone currency transactions) :
    Apart fun session => (transactions session).calls currency where
  others session other differs pair := by
    rintro ⟨update, member, rfl⟩ ⟨next, nextMember, samePair⟩
    exact beside.apart session other differs update next member nextMember samePair.symm
  pairs session := ((transactions session).calls_ofOneBase currency).1

theorem SideBySide.inv (beside : SideBySide zone currency transactions) {rate : RateTable}
    {start : World} (fresh : start.Fresh rate) {turns : List Turn} {reached : Sessions}
    (runs : (Sessions.opened start currency transactions).run zone currency turns = some reached) :
    reached.Inv zone currency rate fun session => (transactions session).calls currency :=
  fresh.opened.run beside.areApart runs

theorem Transaction.give_withScan {transaction : Transaction} {scan : Scan}
    {updates : List Update} (sameZone : transaction.zone = zone)
    (calls : transaction.calls currency = updates.map .ok) (rate : RateTable) :
    (transaction.withScan scan).give currency rate =
      updates.foldlM (writeWith zone currency scan) rate := by
  have asked : (transaction.withScan scan).updates currency = .ok updates :=
    Transaction.updates_eq_ok.mpr calls
  subst sameZone
  rw [Transaction.give, asked]
  rfl

theorem loop_give {scans : Session → Scan}
    (sameZone : ∀ session, (transactions session).zone = zone) {order : List Session}
    (complete : ∀ session ∈ order, ∃ updates : List Update,
      (transactions session).calls currency = updates.map .ok) (rate : RateTable) :
    (order.map fun session => (transactions session).withScan (scans session)).foldlM
        (Transaction.give currency) rate =
      order.foldlM (playAlone zone currency (fun session => (transactions session).calls currency)
        scans) rate := by
  induction order generalizing rate with
  | nil => rfl
  | cons session rest ih =>
      obtain ⟨updates, calls⟩ := complete session List.mem_cons_self
      have same : ((transactions session).withScan (scans session)).give currency rate =
          playAlone zone currency (fun session => (transactions session).calls currency) scans rate
            session := by
        rw [Transaction.give_withScan (sameZone session) calls, playAlone]
        rw [calls, filterMap_toOption_ok]
      rw [List.map_cons, List.foldlM_cons, List.foldlM_cons, same]
      exact congrArg _ (funext fun middle =>
        ih (fun other member => complete other (List.mem_cons_of_mem _ member)) middle)

end

/-- Transactions on the rates run side by side, statement by statement, and no pair is
given by two of them: callbacks with different bases, for example.  Then what is
committed at any moment is what the committed transactions leave when they run in
full one after the other, in whatever order; of the others nothing can be seen. -/
theorem concurrent_transactions_serializable (zone : TimeZone) (database : Database)
    (transactions : Session → Transaction)
    (beside : SideBySide zone database.currency transactions)
    (start : World) (fresh : start.Fresh database.rate) (turns : List Turn) (reached : Sessions)
    (runs : (Sessions.opened start database.currency transactions).run zone database.currency
      turns = some reached) :
    ∃ scans : Session → Scan, ∀ order : List Session, order.Nodup →
      (∀ session, session ∈ order ↔ reached.world.phase session = .committed) →
        ∃ serial : RateTable,
          (order.map fun session => (transactions session).withScan (scans session)).foldlM
            (Transaction.give database.currency) database.rate = .ok serial ∧
          (database.run (order.map fun session =>
            (transactions session).withScan (scans session))).rate = serial ∧
          committedRows reached.world.heap = serial.rows := by
  have inv := beside.inv fresh runs
  obtain ⟨scans, serial⟩ := inv.serial beside.areApart
  refine ⟨scans, fun order nodup isOrder => ?_⟩
  obtain ⟨table, played, rows⟩ := serial order nodup isOrder
  have complete : ∀ session ∈ order, ∃ updates : List Update,
      (transactions session).calls database.currency = updates.map .ok := by
    intro session member
    obtain ⟨_, updates, _, script, _⟩ := inv.committed session ((isOrder session).mp member)
    exact ⟨updates, script⟩
  have given := (loop_give beside.sameZone complete database.rate).trans played
  refine ⟨table, given, ?_, rows.symm⟩
  have all : ∀ transaction ∈ order.map fun session =>
      (transactions session).withScan (scans session), transaction.OnRates := by
    intro transaction member
    obtain ⟨session, _, rfl⟩ := List.mem_map.mp member
    exact beside.onRates session
  rw [show (database.run _).rate = (database.run _).toTables.rate from rfl,
    Database.run_onRates database _ all]
  exact run_of_loop given

/-- The first delivery, a call for EUR and requests that have failed. -/
noncomputable def sideBySide : Session → Transaction
  | 0 => firstDelivery
  | 1 => euroCall
  | _ => sampleTransaction (.onDay 9000) (.exchangeRateFail 1)

def sideBySideCalls : Session → List (Except PgError Update)
  | 0 => [.ok firstRate]
  | 1 => [.ok { euroRate with date := .onDay 9001 }]
  | _ => []

theorem sideBySide_calls :
    (fun session => (sideBySide session).calls Database.initial.currency) = sideBySideCalls := by
  funext session
  match session with
  | 0 => rfl
  | 1 => rfl
  | _ + 2 => rfl

theorem sideBySide_apart : SideBySide .utc Database.initial.currency sideBySide where
  sameZone
    | 0 | 1 | _ + 2 => rfl
  onRates
    | 0 | 1 | _ + 2 => trivial
  apart := by
    have calls : ∀ session, (sideBySide session).calls Database.initial.currency =
        sideBySideCalls session := fun session => congrFun sideBySide_calls session
    intro session other differs update update' member otherMember
    rw [calls] at member otherMember
    match session, other with
    | 0, 0 | 1, 1 => exact absurd rfl differs
    | 0, 1 | 1, 0 =>
        cases List.mem_singleton.mp member
        cases List.mem_singleton.mp otherMember
        decide
    | _ + 2, _ => exact absurd member List.not_mem_nil
    | _, _ + 2 => exact absurd otherMember List.not_mem_nil

/-- Both transactions look up before either has written, and write before either commits. -/
def sideBySideTurns : List Turn :=
  [.call (.select 0 none), .call (.select 1 none), .call (.startUpdate 1), .call (.startUpdate 0),
    .call (.finishUpdate 0), .call (.finishUpdate 1), .call (.insert 1), .call (.insert 0),
    .next 0, .next 1, .commit 1, .commit 0]

theorem sideBySide_possible : ∃ reached,
    (Sessions.opened idleWorld Database.initial.currency sideBySide).run .utc
        Database.initial.currency sideBySideTurns = some reached ∧
      ∀ session, session ∈ [0, 1] ↔ reached.world.phase session = .committed := by
  have possible : (Sessions.run .utc .init ⟨idleWorld, sideBySideCalls⟩ sideBySideTurns).isSome =
      true := by decide
  obtain ⟨reached, runs⟩ := Option.isSome_iff_exists.mp possible
  have phases : ∀ sessions ∈ Sessions.run .utc .init ⟨idleWorld, sideBySideCalls⟩ sideBySideTurns,
      sessions.world.phase 0 = .committed ∧ sessions.world.phase 1 = .committed := by decide
  have others : ∀ session,
      (Sessions.run .utc .init ⟨idleWorld, sideBySideCalls⟩ sideBySideTurns).map
        (fun sessions => sessions.world.phase (session + 2)) = some .idle := fun _ => rfl
  obtain ⟨first, second⟩ := phases reached runs
  refine ⟨reached, by rw [Sessions.opened, sideBySide_calls]; exact runs, fun session => ?_⟩
  match session with
  | 0 => exact iff_of_true (by decide) first
  | 1 => exact iff_of_true (by decide) second
  | session + 2 =>
      have idle := others session
      rw [runs, Option.map_some, Option.some.injEq] at idle
      exact iff_of_false (by simp) (by simp [idle])

theorem side_by_side_serializable :
    ∃ (reached : Sessions) (scans : Session → Scan),
      (Sessions.opened idleWorld Database.initial.currency sideBySide).run .utc
        Database.initial.currency sideBySideTurns = some reached ∧
      committedRows reached.world.heap =
        (Database.initial.run ([0, 1].map fun session =>
          (sideBySide session).withScan (scans session))).rate.rows := by
  obtain ⟨reached, runs, committed⟩ := sideBySide_possible
  obtain ⟨scans, serial⟩ := concurrent_transactions_serializable .utc .initial sideBySide
    sideBySide_apart idleWorld idleWorld_fresh sideBySideTurns reached runs
  obtain ⟨table, _, rfl, rows⟩ := serial [0, 1] (by decide) committed
  exact ⟨reached, scans, runs, rows⟩

/-! ## What is answered -/

section
variable {zone : TimeZone} {history : List Transaction} {transactions : Session → Transaction}
variable {reached : Sessions} {session : Session}

theorem Sessions.Inv.committed_logs
    (inv : reached.Inv zone (Database.empty.run history).currency
      (Database.empty.run history).rate
      fun session => (transactions session).calls (Database.empty.run history).currency)
    (inOrder : InOrder zone (history ++ [transactions session]))
    (committed : reached.world.phase session = .committed) :
    ∃ updates, (transactions session).updates (Database.empty.run history).currency = .ok updates ∧
      (∀ update ∈ updates, (transactions session).date = some update.date) ∧
      ((Book.empty.run history).log ++ updates).Pairwise
        (fun earlier later => earlier.date ≤ later.date) ∧
      ∀ update ∈ updates, timelineOf (committedRows reached.world.heap) update.pair =
        chain zone.maxDate (entries (pairWrites update.pair
          ((Book.empty.run history).log ++ updates))) := by
  have part := inOrder.of_prefix (List.prefix_append history [transactions session])
  have represent := part.represent
  have admits := inOrder.admits (List.prefix_refl _)
  obtain ⟨scan, updates, alone, calls, loop, settledRows⟩ := inv.committed session committed
  have asked := Transaction.updates_eq_ok.mpr calls
  have dated := Transaction.updates_dated asked
  refine ⟨updates, asked, dated, admits.ascending rfl dated part.log_ascending, ?_⟩
  have given : updates.foldlM (((transactions session).withScan scan).context
      (Book.empty.run history).currency).write (Database.empty.run history).rate = .ok alone := by
    rw [← represent.currency, ← loop]
    have sameZone := inOrder.sameZone (transactions session) (by simp)
    subst sameZone
    rfl
  have askedAgain : ((transactions session).withScan scan).updates
      (Book.empty.run history).currency = .ok updates := by
    rw [← represent.currency]
    exact asked
  obtain ⟨after, posted, afterRepresents⟩ := (matches_post represent
    (Database.empty.run history).references
    (show (Book.empty.run history).Admits zone ((transactions session).withScan scan) from admits)
    askedAgain).forth given
  obtain ⟨_, rfl⟩ := Book.post_eq_ok.mp posted
  intro update member
  have called : .ok update ∈ (transactions session).calls (Database.empty.run history).currency :=
    calls ▸ List.mem_map_of_mem member
  rw [← afterRepresents.logs update.pair]
  have rows := settledRows update.pair ⟨update, called, rfl⟩
  rw [rowsIn_settled] at rows
  exact congrArg (Multiset.map RateRow.period) rows

theorem Sessions.Inv.kept_timeline {rate : RateTable} {currency : CurrencyTable}
    {scripts : Session → List (Except PgError Update)}
    (inv : reached.Inv zone currency rate scripts) {pair : Uuid × Uuid}
    (uncommitted : ∀ session, Owns scripts session pair →
      reached.world.phase session ≠ .committed) :
    timelineOf (committedRows reached.world.heap) pair = rate.timeline pair := by
  have rows := inv.kept pair uncommitted
  rw [rowsIn_settled] at rows
  exact congrArg (Multiset.map RateRow.period) rows

end

/-- After a history in the order of its dates, transactions run side by side, each of
which could come next.  However their steps interleave, what a committed one gives is
what `get_rate` returns from its date on, and all other answers are those of the
history. -/
theorem concurrent_answers (zone : TimeZone) (history : List Transaction)
    (transactions : Session → Transaction)
    (beside : SideBySide zone (Database.empty.run history).currency transactions)
    (inOrder : ∀ session, InOrder zone (history ++ [transactions session]))
    (start : World) (fresh : start.Fresh (Database.empty.run history).rate)
    (turns : List Turn) (reached : Sessions)
    (runs : (Sessions.opened start (Database.empty.run history).currency transactions).run zone
      (Database.empty.run history).currency turns = some reached)
    (table : RateTable) (rows : table.rows = committedRows reached.world.heap)
    (now before : Scan) (currencyFrom currencyTo : Uuid) (instant : Timestamptz)
    (below : instant < zone.maxDate) :
    (∀ session updates update, reached.world.phase session = .committed →
        (transactions session).updates (Database.empty.run history).currency = .ok updates →
        update ∈ updates → update.pair = (currencyFrom, currencyTo) → update.date ≤ instant →
          getRate now table (some currencyFrom) (some currencyTo) (some instant) =
            some update.value) ∧
      ((∀ session updates update, reached.world.phase session = .committed →
        (transactions session).updates (Database.empty.run history).currency = .ok updates →
        update ∈ updates → update.pair = (currencyFrom, currencyTo) → instant < update.date) →
          getRate now table (some currencyFrom) (some currencyTo) (some instant) =
            getRate before (Database.empty.run history).rate (some currencyFrom)
              (some currencyTo) (some instant)) := by
  have inv := beside.inv fresh runs
  have part := InOrder.of_prefix (inOrder 0) (List.prefix_append history [transactions 0])
  have sameTimeline : ∀ pair, table.timeline pair =
      timelineOf (committedRows reached.world.heap) pair := fun pair => by
    rw [RateTable.timeline, rows]
  -- the answer for a pair that a committed transaction gives
  have given : ∀ session updates update, reached.world.phase session = .committed →
      (transactions session).updates (Database.empty.run history).currency = .ok updates →
      update ∈ updates → update.pair = (currencyFrom, currencyTo) →
      (∀ other ∈ updates, (transactions session).date = some other.date) ∧
      getRate now table (some currencyFrom) (some currencyTo) (some instant) =
        Book.read { Book.empty.run history with log := (Book.empty.run history).log ++ updates }
          currencyFrom currencyTo instant := by
    intro session updates update committed asked member isPair
    obtain ⟨others, askedAgain, dated, ascending, logs⟩ :=
      inv.committed_logs (inOrder session) committed
    rw [asked] at askedAgain
    cases askedAgain
    refine ⟨dated, getRate_of_chain ?_ ascending now below⟩
    rw [sameTimeline, ← isPair]
    exact logs update member
  constructor
  · intro session updates update committed asked member isPair begun
    rw [(given session updates update committed asked member isPair).2]
    have distinct : (updates.map Update.pair).Nodup := by
      have pairs := ((transactions session).calls_ofOneBase
        (Database.empty.run history).currency).1
      rwa [Transaction.updates_eq_ok.mp asked, filterMap_toOption_ok] at pairs
    obtain ⟨rfl, rfl⟩ := Prod.mk.inj isPair
    exact Book.read_given rfl distinct member begun
  · intro later
    rw [part.getRate before, if_pos below]
    by_cases owner : ∃ session updates update, reached.world.phase session = .committed ∧
        (transactions session).updates (Database.empty.run history).currency = .ok updates ∧
        update ∈ updates ∧ update.pair = (currencyFrom, currencyTo)
    · obtain ⟨session, updates, update, committed, asked, member, isPair⟩ := owner
      obtain ⟨dated, read⟩ := given session updates update committed asked member isPair
      rw [read]
      refine Book.read_append rfl (fun other otherMember => ?_) currencyFrom currencyTo
      rw [← Option.some.inj ((dated update member).symm.trans (dated other otherMember))]
      exact later session updates update committed asked member isPair
    · push Not at owner
      refine (getRate_of_chain ?_ part.log_ascending now below).trans rfl
      rw [sameTimeline, inv.kept_timeline, part.represent.logs]
      rintro session ⟨update, member, isPair⟩ committed
      obtain ⟨_, updates, _, calls, _⟩ := inv.committed session committed
      dsimp only at member
      rw [calls] at member
      obtain ⟨_, isUpdate, same⟩ := List.mem_map.mp member
      cases same
      exact owner session updates update committed (Transaction.updates_eq_ok.mpr calls) isUpdate
        isPair

theorem side_by_side_answers :
    ∃ (reached : Sessions) (table : RateTable),
      (Sessions.opened idleWorld (Database.empty.run initialTransactions).currency sideBySide).run
        .utc (Database.empty.run initialTransactions).currency sideBySideTurns = some reached ∧
      table.rows = committedRows reached.world.heap ∧
      ∀ now, getRate now table (some usd.id) (some rub.id) (some (.onDay 9001)) =
        some firstRate.value := by
  have sameTables := initialTransactions_run
  have sameCurrency : (Database.empty.run initialTransactions).currency =
      Database.initial.currency := congrArg Tables.currency sameTables
  have sameRate : (Database.empty.run initialTransactions).rate = .empty :=
    congrArg Tables.rate sameTables
  obtain ⟨reached, runs, committed⟩ := sideBySide_possible
  have inv := sideBySide_apart.inv idleWorld_fresh runs
  rw [← sameCurrency] at runs
  have inOrder : ∀ session, InOrder .utc (initialTransactions ++ [sideBySide session]) := by
    intro session
    have third : ∀ later, sideBySide (later + 2) = sideBySide 2 := fun _ => rfl
    match session with
    | 0 => exact ⟨by simp [initialTransactions, sideBySide, firstDelivery, sampleTransaction],
        by decide, by decide⟩
    | 1 => exact ⟨by simp [initialTransactions, sideBySide, euroCall, sampleTransaction],
        by decide, by decide⟩
    | later + 2 =>
        rw [third later]
        exact ⟨by simp [initialTransactions, sideBySide, sampleTransaction], by decide, by decide⟩
  refine ⟨reached, ⟨_, inv.keys.committed⟩, runs, rfl, fun now => ?_⟩
  have answers := concurrent_answers .utc initialTransactions sideBySide
    (sameCurrency ▸ sideBySide_apart) inOrder idleWorld (sameRate ▸ idleWorld_fresh)
    sideBySideTurns reached runs ⟨_, inv.keys.committed⟩ rfl now now usd.id rub.id (.onDay 9001)
    (by decide)
  refine answers.1 0 [firstRate] firstRate ((committed 0).mp (by decide)) ?_
    (List.mem_singleton_self _) rfl (by decide)
  rw [sameCurrency]
  rfl

end ApostolRates
