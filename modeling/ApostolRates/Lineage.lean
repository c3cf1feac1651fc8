import ApostolRates.Deadlock
import ApostolRates.Moves
import ApostolRates.Permanence
import ApostolRates.Provenance

/-!
# Where the committed rates come from

Whatever calls run side by side, in whatever order and for whatever pairs: a committed
rate is never taken away, and every one of them is made of what was given before or by a
committed transaction.  An undone transaction leaves nothing behind, not even through
another one that has read in the meantime.
-/

set_option autoImplicit false

namespace ApostolRates

open ThreeValued ValidTime Versions Traces

/-! ## Rates stay -/

section
variable {zone : TimeZone} {currency : CurrencyTable} {sessions after : Sessions} {turn : Turn}

theorem Update.edit_kept (update : Update) (found : Option RateRow) (row : RateRow) :
    row.Kept (update.edit found row) := by
  unfold Update.edit
  split
  · exact update.setValue_kept row
  · exact update.setEnd_kept row

theorem Sessions.Move.descends (move : sessions.Move zone turn after)
    (descends : Descends RateRow.Kept sessions.world.heap) :
    Descends RateRow.Kept after.world.heap := by
  cases move with
  | select | start | skip | finish | next => exact descends
  | write _ _ located unlocked seen _ =>
      exact descends.write (fun _ _ _ => RateRow.Kept.trans) located unlocked seen
        (Update.edit_kept _ _ _)
  | insert => exact descends.insert
  | commit => exact descends.commit
  | abort => exact descends.abort

/-- Only a commit changes the committed rows, and it keeps each of them. -/
theorem Sessions.Move.rowsKept (move : sessions.Move zone turn after)
    (descends : Descends RateRow.Kept sessions.world.heap) :
    RowsKept (committedRows sessions.world.heap) (committedRows after.world.heap) := by
  cases move with
  | select | start | skip | finish | next => exact RowsKept.refl _
  | write _ _ located _ _ _ =>
      rw [committedRows_write _ located]
      exact RowsKept.refl _
  | insert =>
      rw [committedRows_insert]
      exact RowsKept.refl _
  | commit =>
      rw [World.commitOf, ← outcome_none (sessions.world.heap.map _), outcome_commit]
      exact descends.rel_outcome RateRow.Kept.refl _
  | abort =>
      rw [World.abortOf, committedRows_abort]
      exact RowsKept.refl _

theorem Sessions.kept_run {last : Sessions} (descends : Descends RateRow.Kept sessions.world.heap)
    {turns : List Turn} (runs : sessions.run zone currency turns = some last) :
    Descends RateRow.Kept last.world.heap ∧
      RowsKept (committedRows sessions.world.heap) (committedRows last.world.heap) := by
  refine trace_invariant (fun reached : Sessions => Descends RateRow.Kept reached.world.heap ∧
    RowsKept (committedRows sessions.world.heap) (committedRows reached.world.heap)) ?_
    ⟨descends, RowsKept.refl _⟩ runs
  rintro before turn reached ⟨descends, kept⟩ success
  have move := Sessions.advance_move success
  exact ⟨move.descends descends, kept.trans (move.rowsKept descends)⟩

end

/-- No interleaving takes a committed rate away or moves it to another pair or start: each
is still there as a row of its own at every later moment, with an end that only comes
nearer, whatever the calls are and however their transactions end. -/
theorem concurrent_rates_are_kept (zone : TimeZone) (currency : CurrencyTable) (rate : RateTable)
    (scripts : Session → List (Except PgError Update)) (start : World) (fresh : start.Fresh rate)
    (turns more : List Turn) (middle last : Sessions)
    (runs : Sessions.run zone currency ⟨start, scripts⟩ turns = some middle)
    (goesOn : middle.run zone currency more = some last) :
    ∃ kept added, committedRows last.world.heap = kept + added ∧
      Multiset.Rel RateRow.Kept (committedRows middle.world.heap) kept :=
  (Sessions.kept_run (Sessions.kept_run (descends_of_quiet fresh.quiet) runs).1 goesOn).2

/-- The first delivery ends with a commit, and the second one goes on after it. -/
def overtakingTurns : List Turn :=
  [.call (.select 0 (some rubleRow)), .call (.startUpdate 0), .call (.updateRow 0 1),
    .call (.finishUpdate 0), .call (.insert 0), .next 0, .commit 0, .call (.updateRow 1 0),
    .call (.finishUpdate 1), .call (.insert 1), .next 1]

theorem overtaken_rates_are_kept : ∃ middle last,
    Sessions.run .utc .init ⟨deliveredWorld, twoDeliveriesCalls⟩ waitingTurns = some middle ∧
      middle.run .utc .init overtakingTurns = some last ∧
      ∃ kept added, committedRows last.world.heap = kept + added ∧
        Multiset.Rel RateRow.Kept (committedRows middle.world.heap) kept := by
  have possible : ((Sessions.run .utc .init ⟨deliveredWorld, twoDeliveriesCalls⟩
      waitingTurns).bind fun middle => middle.run .utc .init overtakingTurns).isSome = true := by
    decide
  obtain ⟨last, both⟩ := Option.isSome_iff_exists.mp possible
  obtain ⟨middle, runs, goesOn⟩ := Option.bind_eq_some_iff.mp both
  exact ⟨middle, last, runs, goesOn, concurrent_rates_are_kept .utc .init deliveredBefore.rate
    twoDeliveriesCalls deliveredWorld deliveredWorld_fresh waitingTurns overtakingTurns middle last
    runs goesOn⟩

/-! ## Rates were given -/

section
variable (given : Update → Prop) (scripts : Session → List (Except PgError Update))

/-- What was given before, and what the transactions give that have committed or will. -/
def Sessions.Gave (sessions : Sessions) (ends : Session → Bool) (update : Update) : Prop :=
  given update ∨ ∃ session, sessions.Lasts ends session ∧ .ok update ∈ scripts session

/-- Every row that may be left is made of what was given before and by the transactions
that it takes to leave it. -/
structure Sessions.Traced (top : Timestamptz → Prop) (sessions : Sessions) : Prop where
  script : ∀ session, sessions.calls session <:+ scripts session
  made : sessions.Everywhere fun reached ends row =>
    row.MadeOf (reached.Gave given scripts ends) top

variable {given scripts} {zone : TimeZone} {currency : CurrencyTable} {sessions after : Sessions}
variable {turn : Turn} {top : Timestamptz → Prop} {ends more : Session → Bool} {update : Update}

theorem Sessions.Gave.mono (gave : sessions.Gave given scripts ends update)
    (fewer : ∀ session, ends session = true → more session = true) :
    sessions.Gave given scripts more update := by
  refine gave.imp_right fun ⟨session, lasts, called⟩ => ⟨session, ?_, called⟩
  exact lasts.imp_right (fewer session)

theorem Sessions.Gave.advance (gave : sessions.Gave given scripts (turn.ending ends) update)
    (success : sessions.advance zone currency turn = some after) :
    after.Gave given scripts ends update := by
  exact gave.imp_right fun ⟨session, lasts, called⟩ => ⟨session, lasts.advance success, called⟩

theorem Sessions.Traced.advance (traced : sessions.Traced given scripts top)
    (isTop : top zone.maxDate) (success : sessions.advance zone currency turn = some after) :
    after.Traced given scripts top := by
  have move := Sessions.advance_move success
  refine ⟨fun session => (move.calls_suffix session).trans (traced.script session),
    traced.made.advance success ?_ ?_ ?_ ?_⟩
  · exact fun _ _ _ fewer made => made.mono (fun _ gave => gave.mono fewer) fun _ => id
  · exact fun _ _ made => made.mono (fun _ gave => gave.advance success) fun _ => id
  · intro session update found row edits ends committing made
    obtain ⟨rest, calls, _⟩ := edits.calls
    have isGiven : after.Gave given scripts ends update :=
      .inr ⟨session, .inr committing, (traced.script session).subset (calls ▸ List.mem_cons_self)⟩
    have rowMade := made.mono (fun _ gave => Sessions.Gave.advance
      ((edits.within ends).symm ▸ gave) success) fun _ => id
    unfold Update.edit
    split
    · exact rowMade.setValue isGiven
    · exact rowMade.setEnd isGiven
  · intro session update found adds ends committing made
    obtain ⟨rest, calls⟩ := adds.calls
    have isGiven : after.Gave given scripts ends update :=
      .inr ⟨session, .inr committing, (traced.script session).subset (calls ▸ List.mem_cons_self)⟩
    refine update.newRow_madeOf isGiven isTop fun row isFound => ?_
    obtain ⟨holds, rowMade⟩ := made row isFound
    exact ⟨((update.matches_iff row).mp holds).1, rowMade.mono (fun _ gave =>
      Sessions.Gave.advance ((adds.within ends).symm ▸ gave) success) fun _ => id⟩

theorem Sessions.Traced.run (traced : sessions.Traced given scripts top) (isTop : top zone.maxDate)
    {turns : List Turn} (runs : sessions.run zone currency turns = some after) :
    after.Traced given scripts top :=
  trace_invariant (fun reached => reached.Traced given scripts top)
    (fun _ _ _ before success => before.advance isTop success) traced runs

end

def GivenBy (history : List Transaction) (scripts : Session → List (Except PgError Update))
    (sessions : Sessions) (update : Update) : Prop :=
  GivenIn history update ∨
    ∃ session, sessions.world.phase session = .committed ∧ .ok update ∈ scripts session

/-- Side by side, too, nothing is invented and nothing undone is stored: the value and the
start of every committed rate were given for its pair by a transaction of the history or
by one that has committed, and so was its end, unless it is a `max_date()`. -/
theorem concurrent_rates_were_given (zone : TimeZone) (history : List Transaction)
    (scripts : Session → List (Except PgError Update)) (start : World)
    (fresh : start.Fresh (Database.empty.run history).rate) (turns : List Turn)
    (reached : Sessions)
    (runs : Sessions.run zone (Database.empty.run history).currency ⟨start, scripts⟩ turns =
      some reached) (row : RateRow) (member : row ∈ committedRows reached.world.heap) :
    (∃ update, GivenBy history scripts reached update ∧ update.pair = row.pair ∧
        update.value = row.value) ∧
      (∃ update, GivenBy history scripts reached update ∧ update.pair = row.pair ∧
        update.date = row.validFromDate) ∧
      (row.validToDate = zone.maxDate ∨ TopIn history row.validToDate ∨
        ∃ update, GivenBy history scripts reached update ∧ update.pair = row.pair ∧
          update.date = row.validToDate) := by
  have initial : Sessions.Traced (GivenIn history) scripts
      (fun date => date = zone.maxDate ∨ TopIn history date) ⟨start, scripts⟩ :=
    ⟨fun _ => List.suffix_rfl, fresh.everywhere fun ends row member =>
      (madeOf_run history row member).mono (fun _ => .inl) fun _ => .inr⟩
  have traced := initial.run (.inl rfl) runs
  have made := traced.made.left (fun _ => false) row (by rwa [outcome_none])
  have onlyCommitted : ∀ update, reached.Gave (GivenIn history) scripts (fun _ => false) update →
      GivenBy history scripts reached update := by
    refine fun update gave => gave.imp_right fun ⟨session, lasts, called⟩ => ?_
    exact ⟨session, lasts.resolve_right Bool.false_ne_true, called⟩
  obtain ⟨value, startGiven, stop⟩ := made.mono onlyCommitted fun _ => id
  exact ⟨value, startGiven, or_assoc.mp stop⟩

def firstRow : RateRow := ⟨usd.id, rub.id, .finite 96245026 6, .onDay 9000, TimeZone.utc.maxDate⟩

def firstWorld : World := ⟨[⟨some firstRow, none⟩], fun _ => .idle⟩

theorem firstWorld_fresh :
    firstWorld.Fresh (Database.empty.run (openingTransactions ++ [firstDelivery])).rate :=
  ⟨fun _ => rfl, by decide, rfl⟩

def dayAfterCalls : Session → List (Except PgError Update)
  | 0 => [.ok ⟨usd.id, rub.id, .finite 97 0, .onDay 9001⟩]
  | 1 => [.ok ⟨usd.id, rub.id, .finite 98 0, .onDay 9002⟩]
  | _ => []

/-- The first call is undone after the second one has looked up. -/
def undoneTurns : List Turn :=
  [.call (.select 0 (some firstRow)), .call (.startUpdate 0), .call (.updateRow 0 0),
    .call (.finishUpdate 0), .call (.insert 0), .call (.select 1 (some firstRow)), .abort 0,
    .call (.startUpdate 1), .call (.updateRow 1 0), .call (.finishUpdate 1), .call (.insert 1),
    .next 1, .commit 1]

theorem undoneTurns_possible : (Sessions.run .utc
    (Database.empty.run (openingTransactions ++ [firstDelivery])).currency
    ⟨firstWorld, dayAfterCalls⟩ undoneTurns).isSome = true := by
  decide

theorem undone_rate_leaves_nothing : ∃ reached,
    Sessions.run .utc (Database.empty.run (openingTransactions ++ [firstDelivery])).currency
        ⟨firstWorld, dayAfterCalls⟩ undoneTurns = some reached ∧
      ∀ row ∈ committedRows reached.world.heap, ∃ update,
        GivenBy (openingTransactions ++ [firstDelivery]) dayAfterCalls reached update ∧
          update.pair = row.pair ∧ update.value = row.value := by
  obtain ⟨reached, runs⟩ := Option.isSome_iff_exists.mp undoneTurns_possible
  exact ⟨reached, runs, fun row member => (concurrent_rates_were_given .utc
    (openingTransactions ++ [firstDelivery]) dayAfterCalls firstWorld firstWorld_fresh undoneTurns
    reached runs row member).1⟩

end ApostolRates
