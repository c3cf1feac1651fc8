import ApostolRates.Lineage

/-!
# Answers stay side by side

However the open transactions end, a rate that stops before `max_date()` stops where
another one begins, or where a call of a transaction that commits is about to insert one.
This survives every interleaving of any calls, so that no commit leaves a gap behind: an
instant that has an answer keeps one, and a committed call has been given an answer for
every instant from its date on.
-/

set_option autoImplicit false

namespace ApostolRates

open ThreeValued ValidTime Versions Traces

/-! ## Where rates begin -/

/-- The call has ended rates at its date, or may do so, and will insert its row. -/
def Phase.Splits (update : Update) : Phase → Prop
  | .updating found _ => ¬ update.Overwrites found
  | .inserting _ => True
  | _ => False

section
variable (zone : TimeZone) (sessions : Sessions)

def Sessions.Inserts (session : Session) (origin : (Uuid × Uuid) × Timestamptz) : Prop :=
  ∃ update rest, sessions.calls session = .ok update :: rest ∧
    (sessions.world.phase session).Splits update ∧ update.origin = origin ∧
    update.date < zone.maxDate

def Sessions.Begins (ends : Session → Bool) (origin : (Uuid × Uuid) × Timestamptz) : Prop :=
  (∃ row ∈ outcome ends sessions.world.heap, row.origin = origin ∧ row.period.Proper) ∨
    ∃ session, ends session = true ∧ sessions.Inserts zone session origin

/-- The row stops at `max_date()` or where another rate begins. -/
structure Sessions.Joins (ends : Session → Bool) (row : RateRow) : Prop where
  bounded : row.validToDate ≤ zone.maxDate
  begins : row.period.Proper → sessions.Begins zone ends row.origin
  linked : row.validToDate < zone.maxDate →
    sessions.Begins zone ends (row.pair, row.validToDate)

/-- All rows that may be left are joined, and more commits never take a start away. -/
structure Sessions.Continuous : Prop where
  joined : sessions.Everywhere (Sessions.Joins zone)
  grows : ∀ ends more origin, (∀ session, ends session = true → more session = true) →
    sessions.Begins zone ends origin → sessions.Begins zone more origin

end

section
variable {zone : TimeZone} {currency : CurrencyTable} {sessions after : Sessions} {turn : Turn}
variable {ends more : Session → Bool} {session : Session} {update : Update} {row : RateRow}
variable {found : Option RateRow} {origin : (Uuid × Uuid) × Timestamptz}

theorem Sessions.Joins.imp (joins : sessions.Joins zone ends row)
    (begins : ∀ origin, sessions.Begins zone ends origin → after.Begins zone more origin) :
    after.Joins zone more row :=
  ⟨joins.bounded, fun proper => begins _ (joins.begins proper),
    fun before => begins _ (joins.linked before)⟩

theorem Sessions.inserts_others (success : sessions.advance zone currency turn = some after)
    (differs : session ≠ turn.session) :
    after.Inserts zone session origin ↔ sessions.Inserts zone session origin := by
  obtain ⟨calls, phase⟩ := Sessions.advance_others success differs
  rw [Sessions.Inserts, Sessions.Inserts, calls, phase]

/-! ## What a call makes of a row -/

theorem Update.edit_of_matches (holds : update.Matches row) :
    update.edit found row =
      if update.Overwrites found then { row with value := update.value }
      else { row with validToDate := update.date } := by
  unfold Update.Matches at holds
  unfold Update.edit Update.setValue Update.setEnd
  rw [if_pos holds, if_pos holds]

theorem Update.Matches.proper (holds : update.Matches row) : row.period.Proper :=
  ((update.matches_iff row).mp holds).2.proper

variable (found) in
theorem Update.edit_proper (holds : update.Matches row) :
    (update.edit found row).period.Proper ∨
      ¬ update.Overwrites found ∧ update.origin = row.origin := by
  -- a row that the call has come to keeps its start, unless it starts at the date, where the
  -- call is about to insert another one
  rw [Update.edit_of_matches holds]
  obtain ⟨samePair, begun, _⟩ := (update.matches_iff row).mp holds
  split
  · exact .inl holds.proper
  · rename_i splits
    rcases begun.lt_or_eq with earlier | atDate
    · exact .inl earlier
    · exact .inr ⟨splits, Prod.ext samePair.symm atDate.symm⟩

/-! ## Starts before and after a turn -/

theorem Sessions.Continuous.inserts_advance (continuous : sessions.Continuous zone)
    (success : sessions.advance zone currency turn = some after)
    (inserts : sessions.Inserts zone turn.session origin)
    (committing : turn.ending ends turn.session = true) : after.Begins zone ends origin := by
  obtain ⟨update, rest, calls, splits, isOrigin, below⟩ := inserts
  have goesOn : ∀ {phase : Phase}, after.calls turn.session = .ok update :: rest →
      after.world.phase turn.session = phase → phase.Splits update → ends turn.session = true →
        after.Begins zone ends origin := by
    rintro _ sameCalls rfl stillSplits committing
    exact .inr ⟨turn.session, committing, update, rest, sameCalls, stillSplits, isOrigin, below⟩
  have now : ∀ {phase : Phase}, sessions.world.phase turn.session = phase →
      phase.Splits update := by
    rintro _ rfl
    exact splits
  cases Sessions.advance_move success with
  | select _ idle => exact absurd (now idle) id
  | start _ selected => exact absurd (now selected) id
  | skip _ updating | write _ updating =>
      have splits := now updating
      exact goesOn calls (Function.update_self _ _ _) splits committing
  | @finish session update rest found before updating =>
      cases before.symm.trans calls
      have splits : ¬ update.Overwrites found := now updating
      refine goesOn calls (Function.update_self _ _ _) ?_ committing
      rw [if_neg splits]
      trivial
  | @insert session update rest found before inserting =>
      cases before.symm.trans calls
      refine .inl ⟨_, mem_outcome_insert.mpr (.inr ⟨committing, rfl⟩), isOrigin, ?_⟩
      refine update.newRow_proper below fun row isFound => ?_
      refine (continuous.joined.found session update rest row calls ?_).1
      rw [inserting]
      exact isFound
  | next _ finished => exact absurd (now finished) id
  | commit before => cases before.symm.trans calls
  | abort => cases (Function.update_self _ _ _).symm.trans committing

theorem Sessions.Continuous.begins_advance (continuous : sessions.Continuous zone)
    (success : sessions.advance zone currency turn = some after)
    (begins : sessions.Begins zone (turn.ending ends) origin) : after.Begins zone ends origin := by
  rcases begins with ⟨row, member, isOrigin, proper⟩ | ⟨session, committing, inserts⟩
  · cases Sessions.advance_move success with
    | select | start | skip | finish | next => exact .inl ⟨row, member, isOrigin, proper⟩
    | @write session update rest found targets index slot old calls updating located unlocked seen
        holds =>
        rcases mem_outcome_of_write located unlocked seen member with after | ⟨committing, rfl⟩
        · exact .inl ⟨row, after, isOrigin, proper⟩
        · rcases Update.edit_proper found holds with stillProper | ⟨splits, atStart⟩
          · exact .inl ⟨_, mem_outcome_written located committing unlocked,
              (Update.edit_origin row).trans isOrigin, stillProper⟩
          · have below : update.date < zone.maxDate :=
              ((update.matches_iff row).mp holds).2.2.trans_le
                (continuous.joined.left _ row member).bounded
            refine .inr ⟨session, committing, update, rest, calls, ?_, atStart.trans isOrigin,
              below⟩
            dsimp only
            rw [Function.update_self]
            exact splits
    | insert => exact .inl ⟨row, mem_outcome_insert.mpr (.inl member), isOrigin, proper⟩
    | commit =>
        refine .inl ⟨row, ?_, isOrigin, proper⟩
        rw [World.commitOf, outcome_commit]
        exact member
    | abort =>
        refine .inl ⟨row, ?_, isOrigin, proper⟩
        rw [World.abortOf, outcome_abort]
        exact member
  · by_cases own : session = turn.session
    · subst own
      exact continuous.inserts_advance success inserts committing
    · refine .inr ⟨session, ?_, (Sessions.inserts_others success own).mpr inserts⟩
      rwa [turn.ending_others own] at committing

theorem Sessions.Begins.before (begins : after.Begins zone ends origin)
    (success : sessions.advance zone currency turn = some after) :
    sessions.Begins zone (turn.ending ends) origin ∨
      ends turn.session = true ∧
        ∀ more, more turn.session = true → after.Begins zone more origin := by
  rcases begins with ⟨row, member, isOrigin, proper⟩ | ⟨session, committing, inserts⟩
  · cases Sessions.advance_move success with
    | select | start | skip | finish | next => exact .inl (.inl ⟨row, member, isOrigin, proper⟩)
    | write _ _ located unlocked _ _ =>
        rcases mem_outcome_write located unlocked member with before | ⟨committing, rfl⟩
        · exact .inl (.inl ⟨row, before, isOrigin, proper⟩)
        · exact .inr ⟨committing, fun more isMore =>
            .inl ⟨_, mem_outcome_written located isMore unlocked, isOrigin, proper⟩⟩
    | insert =>
        rcases mem_outcome_insert.mp member with before | ⟨committing, rfl⟩
        · exact .inl (.inl ⟨row, before, isOrigin, proper⟩)
        · exact .inr ⟨committing, fun more isMore =>
            .inl ⟨_, mem_outcome_insert.mpr (.inr ⟨isMore, rfl⟩), isOrigin, proper⟩⟩
    | commit =>
        rw [World.commitOf, outcome_commit] at member
        exact .inl (.inl ⟨row, member, isOrigin, proper⟩)
    | abort =>
        rw [World.abortOf, outcome_abort] at member
        exact .inl (.inl ⟨row, member, isOrigin, proper⟩)
  · by_cases own : session = turn.session
    · subst own
      exact .inr ⟨committing, fun more isMore => .inr ⟨_, isMore, inserts⟩⟩
    · refine .inl (.inr ⟨session, ?_, (Sessions.inserts_others success own).mp inserts⟩)
      rwa [turn.ending_others own]

/-! ## Turns and runs -/

theorem Sessions.Continuous.grows_advance (continuous : sessions.Continuous zone)
    (success : sessions.advance zone currency turn = some after)
    (fewer : ∀ session, ends session = true → more session = true)
    (begins : after.Begins zone ends origin) : after.Begins zone more origin := by
  rcases begins.before success with before | ⟨committing, always⟩
  · exact continuous.begins_advance success
      (continuous.grows _ _ _ (turn.ending_mono fewer) before)
  · exact always more (fewer _ committing)

/-- A row that a call edits is joined: where it is cut, the call will insert its row. -/
theorem Sessions.Continuous.edited (continuous : sessions.Continuous zone)
    (success : sessions.advance zone currency turn = some after)
    (edits : sessions.Edits turn after session update found row) (committing : ends session = true)
    (joins : sessions.Joins zone ends row) : after.Joins zone ends (update.edit found row) := by
  have holds := edits.holds
  have left := edits.left ends committing
  have below : update.date < row.validToDate := ((update.matches_iff row).mp holds).2.2
  rw [Update.edit_of_matches holds] at left ⊢
  split at left
  · rename_i overwrites
    rw [if_pos overwrites]
    refine ⟨joins.bounded, fun proper => .inl ⟨_, left, rfl, proper⟩, fun before => ?_⟩
    refine continuous.begins_advance success ?_
    rw [edits.within]
    exact joins.linked before
  · rename_i splits
    rw [if_neg splits]
    refine ⟨below.le.trans joins.bounded, fun proper => .inl ⟨_, left, rfl, proper⟩, fun _ => ?_⟩
    obtain ⟨rest, _, calls⟩ := edits.calls
    obtain ⟨_, remaining, _, updating⟩ := edits.updating
    refine .inr ⟨session, committing, update, rest, calls, ?_, ?_, below.trans_le joins.bounded⟩
    · rw [updating]
      exact splits
    · exact Prod.ext ((update.matches_iff row).mp holds).1.symm rfl

theorem Sessions.Continuous.added (continuous : sessions.Continuous zone)
    (success : sessions.advance zone currency turn = some after)
    (adds : sessions.Adds zone turn after session update found) (committing : ends session = true)
    (joins : ∀ row, found = some row → update.Matches row ∧ sessions.Joins zone ends row) :
    after.Joins zone ends (update.newRow zone found) := by
  have begins : (update.newRow zone found).period.Proper →
      after.Begins zone ends (update.newRow zone found).origin := fun proper =>
    .inl ⟨_, adds.left ends committing, rfl, proper⟩
  cases found with
  | none => exact ⟨le_rfl, begins, fun before => absurd before (lt_irrefl _)⟩
  | some row =>
      obtain ⟨holds, joins⟩ := joins row rfl
      refine ⟨joins.bounded, begins, fun before => continuous.begins_advance success ?_⟩
      have samePair : (update.newRow zone (some row)).pair = row.pair :=
        ((update.matches_iff row).mp holds).1.symm
      rw [adds.within, samePair]
      exact joins.linked before

theorem Sessions.Continuous.advance (continuous : sessions.Continuous zone)
    (success : sessions.advance zone currency turn = some after) : after.Continuous zone where
  joined := continuous.joined.advance success
    (fun ends more _ fewer joins => joins.imp fun origin => continuous.grows ends more origin fewer)
    (fun _ _ joins => joins.imp fun _ => continuous.begins_advance success)
    (fun _ _ _ _ edits _ committing => continuous.edited success edits committing)
    (fun _ _ _ adds _ committing => continuous.added success adds committing)
  grows _ _ _ := continuous.grows_advance success

theorem Sessions.Continuous.run (continuous : sessions.Continuous zone) {turns : List Turn}
    (runs : sessions.run zone currency turns = some after) : after.Continuous zone :=
  trace_invariant (fun reached => reached.Continuous zone)
    (fun _ _ _ before success => before.advance success) continuous runs

theorem World.Fresh.continuous {world : World} {rate : RateTable} (fresh : world.Fresh rate)
    (sound : rate.Sound zone) (scripts : Session → List (Except PgError Update)) :
    Sessions.Continuous zone ⟨world, scripts⟩ := by
  have outcomes : ∀ ends, outcome ends world.heap = rate.rows := fun ends =>
    (outcome_of_quiet fresh.quiet ends).trans fresh.rows
  constructor
  · refine fresh.everywhere fun ends row member => ?_
    have period : row.period ∈ rate.timeline row.pair := mem_timelineOf.mpr ⟨row, member, rfl, rfl⟩
    refine ⟨(sound row.pair).bounded _ period, fun proper => .inl ⟨row, ?_, rfl, proper⟩,
      fun before => ?_⟩
    · rw [outcomes]
      exact member
    · obtain ⟨_, isNext, meets, proper⟩ := (sound row.pair).linked _ period before
      obtain ⟨next, nextMember, samePair, rfl⟩ := mem_timelineOf.mp isNext
      refine .inl ⟨next, ?_, Prod.ext samePair meets, proper⟩
      rw [outcomes]
      exact nextMember
  · intro ends more origin _ begins
    rcases begins with ⟨row, member, isRow⟩ | ⟨session, _, update, rest, _, splits, _⟩
    · dsimp only at member
      rw [outcomes, ← outcomes more] at member
      exact .inl ⟨row, member, isRow⟩
    · dsimp only at splits
      rw [fresh.idle session] at splits
      exact absurd splits id

/-! ## No gaps -/

theorem Sessions.Begins.committed (begins : sessions.Begins zone (fun _ => false) origin) :
    ∃ period ∈ timelineOf (committedRows sessions.world.heap) origin.1,
      period.start = origin.2 ∧ period.Proper := by
  rcases begins with ⟨row, member, rfl, proper⟩ | ⟨_, committing, _⟩
  · rw [outcome_none] at member
    exact ⟨row.period, mem_timelineOf.mpr ⟨row, member, rfl, rfl⟩, rfl, proper⟩
  · cases committing

theorem Sessions.Continuous.linked (continuous : sessions.Continuous zone) (pair : Uuid × Uuid) :
    ∀ period ∈ timelineOf (committedRows sessions.world.heap) pair, period.stop < zone.maxDate →
      ∃ next ∈ timelineOf (committedRows sessions.world.heap) pair,
        next.start = period.stop ∧ next.Proper := by
  intro period member before
  obtain ⟨row, rowMember, rfl, rfl⟩ := mem_timelineOf.mp member
  rw [← outcome_none] at rowMember
  exact ((continuous.joined.left _ row rowMember).linked before).committed

theorem Sessions.Continuous.covered (continuous : sessions.Continuous zone)
    (before : after.Continuous zone)
    (kept : RowsKept (committedRows after.world.heap) (committedRows sessions.world.heap))
    {pair : Uuid × Uuid} {instant : Timestamptz}
    (covered : ∃ period ∈ timelineOf (committedRows after.world.heap) pair,
      period.Covers instant) :
    ∃ period ∈ timelineOf (committedRows sessions.world.heap) pair, period.Covers instant := by
  obtain ⟨_, member, covers⟩ := covered
  obtain ⟨old, oldMember, rfl, rfl⟩ := mem_timelineOf.mp member
  obtain ⟨rows, added, split, related⟩ := kept
  obtain ⟨new, newMember, samePair, sameStart, _⟩ :=
    Multiset.exists_mem_of_rel_of_mem related oldMember
  refine covered_of_shortened (continuous.linked old.pair) covers ?_
    (mem_timelineOf.mpr ⟨new, ?_, samePair, rfl⟩) sameStart
  · rw [← outcome_none] at oldMember
    exact (before.joined.left _ old oldMember).bounded
  · rw [split]
    exact Multiset.mem_add.mpr (.inl newMember)

end

/-- Whatever calls run side by side after a history of the time zone, for the same pairs and
at any dates: between two moments of an interleaving `get_rate` never loses an answer. -/
theorem concurrent_answers_stay (zone : TimeZone) (history : List Transaction)
    (sameZone : ∀ transaction ∈ history, transaction.zone = zone)
    (scripts : Session → List (Except PgError Update)) (start : World)
    (fresh : start.Fresh (Database.empty.run history).rate) (turns more : List Turn)
    (middle last : Sessions)
    (runs : Sessions.run zone (Database.empty.run history).currency ⟨start, scripts⟩ turns =
      some middle)
    (goesOn : middle.run zone (Database.empty.run history).currency more = some last)
    (first second : RateTable) (isFirst : first.rows = committedRows middle.world.heap)
    (isSecond : second.rows = committedRows last.world.heap) (before now : Scan)
    (currencyFrom currencyTo : Uuid) (instant : Timestamptz)
    (answered : getRate before first (some currencyFrom) (some currencyTo) (some instant) ≠ none) :
    getRate now second (some currencyFrom) (some currencyTo) (some instant) ≠ none := by
  have sound : (Database.empty.run history).rate.Sound zone :=
    (Database.coveredIn_run sameZone (sound_empty zone)).1
  have atMiddle := (fresh.continuous sound scripts).run runs
  have descends := (Sessions.kept_run (descends_of_quiet fresh.quiet) runs).1
  have kept := (Sessions.kept_run descends goesOn).2
  rw [getRate_ne_none_iff, selectRows_ne_zero_iff, RateTable.timeline] at answered ⊢
  rw [isFirst] at answered
  rw [isSecond]
  exact (atMiddle.run goesOn).covered atMiddle kept answered

theorem firstHistory_zone :
    ∀ transaction ∈ openingTransactions ++ [firstDelivery], transaction.zone = .utc := by
  simp [openingTransactions, firstDelivery, sampleTransaction]

/-- The first call is undone while the second one goes on. -/
theorem undone_call_leaves_answer :
    ∃ (middle last : Sessions) (first second : RateTable),
      Sessions.run .utc (Database.empty.run (openingTransactions ++ [firstDelivery])).currency
          ⟨firstWorld, dayAfterCalls⟩ (undoneTurns.take 6) = some middle ∧
        middle.run .utc (Database.empty.run (openingTransactions ++ [firstDelivery])).currency
          (undoneTurns.drop 6) = some last ∧
        first.rows = committedRows middle.world.heap ∧
        second.rows = committedRows last.world.heap ∧
        ∀ now, getRate now second (some usd.id) (some rub.id) (some (.onDay 9500)) ≠ none := by
  have possible : ((Sessions.run .utc
      (Database.empty.run (openingTransactions ++ [firstDelivery])).currency
      ⟨firstWorld, dayAfterCalls⟩ (undoneTurns.take 6)).bind fun middle => middle.run .utc
        (Database.empty.run (openingTransactions ++ [firstDelivery])).currency
        (undoneTurns.drop 6)).isSome = true := by decide
  obtain ⟨last, both⟩ := Option.isSome_iff_exists.mp possible
  obtain ⟨middle, runs, goesOn⟩ := Option.bind_eq_some_iff.mp both
  have atMiddle : ∀ sessions ∈ Sessions.run .utc
      (Database.empty.run (openingTransactions ++ [firstDelivery])).currency
      ⟨firstWorld, dayAfterCalls⟩ (undoneTurns.take 6),
      committedRows sessions.world.heap = {firstRow} := by decide
  have atLast : ∀ sessions ∈ (Sessions.run .utc
      (Database.empty.run (openingTransactions ++ [firstDelivery])).currency
      ⟨firstWorld, dayAfterCalls⟩ (undoneTurns.take 6)).bind fun middle => middle.run .utc
        (Database.empty.run (openingTransactions ++ [firstDelivery])).currency
        (undoneTurns.drop 6),
      ((committedRows sessions.world.heap).map RateRow.key).Nodup := by decide
  have isFirst : firstTable.rows = committedRows middle.world.heap := (atMiddle middle runs).symm
  have answered : getRate .any firstTable (some usd.id) (some rub.id) (some (.onDay 9500)) ≠
      none := by
    rw [getRate_ne_none_iff, selectRows_ne_zero_iff]
    exact ⟨_, mem_timelineOf.mpr ⟨_, Multiset.mem_singleton_self _, rfl, rfl⟩, by decide⟩
  exact ⟨middle, last, firstTable, ⟨_, atLast last both⟩, runs, goesOn, isFirst, rfl, fun now =>
    concurrent_answers_stay .utc (openingTransactions ++ [firstDelivery]) firstHistory_zone
      dayAfterCalls firstWorld firstWorld_fresh (undoneTurns.take 6) (undoneTurns.drop 6) middle
      last runs goesOn firstTable ⟨_, atLast last both⟩ isFirst rfl .any now usd.id rub.id
      (.onDay 9500) answered⟩

/-! ## Calls are answered -/

section
variable {zone : TimeZone} {currency : CurrencyTable} {sessions after : Sessions} {turn : Turn}
variable {scripts : Session → List (Except PgError Update)} {session : Session}

variable (zone scripts) in
/-- Where a transaction that is not undone has finished a call, a rate begins at its date. -/
def Sessions.Delivered (sessions : Sessions) : Prop :=
  ∀ session, sessions.world.phase session ≠ .aborted →
    ∃ past, scripts session =
        past ++ ahead (sessions.calls session) (sessions.world.phase session) ∧
      ∀ update, .ok update ∈ past → update.date < zone.maxDate →
        ∀ ends, sessions.Lasts ends session → sessions.Begins zone ends update.origin

theorem Sessions.Continuous.begins_found (continuous : sessions.Continuous zone)
    {update : Update} {rest : List (Except PgError Update)} {found : Option RateRow}
    (calls : sessions.calls session = .ok update :: rest)
    (isFound : (sessions.world.phase session).found = found) (overwrites : update.Overwrites found)
    {ends : Session → Bool} (committing : ends session = true) :
    sessions.Begins zone ends update.origin := by
  obtain ⟨row, rfl, atDate⟩ := Option.map_eq_some_iff.mp overwrites
  obtain ⟨holds, joins⟩ := continuous.joined.found session update rest row calls isFound
  have same : row.origin = update.origin := Prod.ext ((update.matches_iff row).mp holds).1 atDate
  rw [← same]
  exact (joins ends committing).begins holds.proper

variable (zone sessions after session) in
/-- The calls that the session has no longer ahead of it have their rates begin. -/
def Sessions.Fulfils : Prop :=
  ∃ extra, ahead (sessions.calls session) (sessions.world.phase session) =
      extra ++ ahead (after.calls session) (after.world.phase session) ∧
    ∀ update, .ok update ∈ extra → update.date < zone.maxDate →
      ∀ ends, after.Lasts ends session → after.Begins zone ends update.origin

theorem Sessions.Fulfils.of_ahead {calls calls' : List (Except PgError Update)}
    {phase phase' : Phase} (before : sessions.calls session = calls)
    (phaseBefore : sessions.world.phase session = phase) (now : after.calls session = calls')
    (phaseNow : after.world.phase session = phase')
    (same : ahead calls phase = ahead calls' phase') :
    sessions.Fulfils zone after session := by
  subst before phaseBefore now phaseNow
  exact ⟨[], same, fun _ member => absurd member List.not_mem_nil⟩

theorem Sessions.Fulfils.of_finished {update : Update} {rest : List (Except PgError Update)}
    {phase : Phase} {found : Option RateRow} (calls : sessions.calls session = .ok update :: rest)
    (before : sessions.world.phase session = phase)
    (unfinished : ahead (.ok update :: rest) phase = .ok update :: rest)
    (callsNow : after.calls session = .ok update :: rest)
    (finished : after.world.phase session = .finished found)
    (begins : update.date < zone.maxDate → ∀ ends, ends session = true →
      after.Begins zone ends update.origin) :
    sessions.Fulfils zone after session := by
  refine ⟨[.ok update], ?_, fun other member below ends lasts => ?_⟩
  · rw [calls, before, unfinished, callsNow, finished]
    rfl
  · cases List.mem_singleton.mp member
    refine begins below ends (lasts.resolve_left fun committed => ?_)
    cases finished.symm.trans committed

/-- A turn finishes at most one call: one that overwrites has found its rate, and one that
inserts brings it. -/
theorem Sessions.Continuous.fulfils_advance (continuous : sessions.Continuous zone)
    (success : sessions.advance zone currency turn = some after)
    (notAborted : after.world.phase session ≠ .aborted) :
    sessions.Fulfils zone after session := by
  by_cases own : session = turn.session
  · subst own
    cases Sessions.advance_move success with
    | select calls idle => exact .of_ahead calls idle calls (Function.update_self _ _ _) rfl
    | start calls selected => exact .of_ahead calls selected calls (Function.update_self _ _ _) rfl
    | skip calls updating | write calls updating =>
        exact .of_ahead calls updating calls (Function.update_self _ _ _) rfl
    | @finish session update rest found calls updating =>
        by_cases overwrites : update.Overwrites found
        · refine .of_finished calls updating rfl calls
            ((Function.update_self _ _ _).trans (if_pos overwrites)) fun below ends committing => ?_
          refine continuous.begins_advance success
            (continuous.begins_found calls ?_ overwrites committing)
          rw [updating]
          rfl
        · exact .of_ahead calls updating calls
            ((Function.update_self _ _ _).trans (if_neg overwrites)) rfl
    | @insert session update rest found calls inserting =>
        refine .of_finished calls inserting rfl calls (Function.update_self _ _ _)
          fun below ends committing => ?_
        have inserts : sessions.Inserts zone session update.origin := by
          refine ⟨update, rest, calls, ?_, rfl, below⟩
          rw [inserting]
          trivial
        exact continuous.begins_advance success (.inr ⟨session, committing, inserts⟩)
    | next calls finished =>
        exact .of_ahead calls finished (Function.update_self _ _ _) (Function.update_self _ _ _) rfl
    | commit calls idle => exact .of_ahead calls idle calls (Function.update_self _ _ _) rfl
    | abort => exact absurd (Function.update_self _ _ _) notAborted
  · obtain ⟨sameCalls, samePhase⟩ := Sessions.advance_others success own
    exact .of_ahead rfl rfl sameCalls samePhase rfl

theorem Sessions.Delivered.advance (delivered : sessions.Delivered zone scripts)
    (continuous : sessions.Continuous zone)
    (success : sessions.advance zone currency turn = some after) :
    after.Delivered zone scripts := by
  intro session notAborted
  have notBefore : sessions.world.phase session ≠ .aborted := by
    intro aborted
    have ended : (sessions.world.phase session).Ended := by
      rw [aborted]
      trivial
    exact notAborted ((Sessions.ended_advance success ended).trans aborted)
  obtain ⟨past, split, begun⟩ := delivered session notBefore
  obtain ⟨extra, finished, begin⟩ := continuous.fulfils_advance success notAborted
  refine ⟨past ++ extra, ?_, fun update member below ends lasts => ?_⟩
  · rw [split, finished, List.append_assoc]
  · rcases List.mem_append.mp member with earlier | isExtra
    · exact continuous.begins_advance success
        (begun update earlier below _ (lasts.before success notAborted))
    · exact begin update isExtra below ends lasts

theorem Sessions.delivered_run {reached : Sessions} (continuous : sessions.Continuous zone)
    (delivered : sessions.Delivered zone scripts) {turns : List Turn}
    (runs : sessions.run zone currency turns = some reached) :
    reached.Continuous zone ∧ reached.Delivered zone scripts :=
  trace_invariant (fun middle : Sessions => middle.Continuous zone ∧ middle.Delivered zone scripts)
    (fun _ _ _ both success => ⟨both.1.advance success, both.2.advance both.1 success⟩)
    ⟨continuous, delivered⟩ runs

theorem World.Fresh.delivered {world : World} {rate : RateTable} (fresh : world.Fresh rate) :
    Sessions.Delivered zone scripts ⟨world, scripts⟩ := by
  intro session _
  dsimp only
  rw [fresh.idle session]
  exact ⟨[], rfl, fun _ member => absurd member List.not_mem_nil⟩

theorem Sessions.committed_calls {reached : Sessions}
    (initial : ∀ session, sessions.world.phase session = .committed → sessions.calls session = [])
    {turns : List Turn} (runs : sessions.run zone currency turns = some reached) :
    ∀ session, reached.world.phase session = .committed → reached.calls session = [] := by
  refine trace_invariant (fun middle : Sessions => ∀ session,
    middle.world.phase session = .committed → middle.calls session = []) ?_ initial runs
  intro before turn after done success session committed
  by_cases own : session = turn.session
  · subst own
    exact ((Sessions.advance_move success).commit_of_committed committed).2
  · obtain ⟨calls, phase⟩ := Sessions.advance_others success own
    rw [calls]
    exact done session (phase ▸ committed)

end

/-- Whatever calls run side by side after a history of the time zone: once a transaction has
committed, `get_rate` has an answer for each of its calls, from the date of the call up to
`max_date()`, at every moment of every interleaving. -/
theorem concurrent_calls_are_answered (zone : TimeZone) (history : List Transaction)
    (sameZone : ∀ transaction ∈ history, transaction.zone = zone)
    (scripts : Session → List (Except PgError Update)) (start : World)
    (fresh : start.Fresh (Database.empty.run history).rate) (turns : List Turn)
    (reached : Sessions)
    (runs : Sessions.run zone (Database.empty.run history).currency ⟨start, scripts⟩ turns =
      some reached) (session : Session) (committed : reached.world.phase session = .committed)
    (update : Update) (called : .ok update ∈ scripts session) (table : RateTable)
    (isTable : table.rows = committedRows reached.world.heap) (scan : Scan)
    (instant : Timestamptz) (begun : update.date ≤ instant) (below : instant < zone.maxDate) :
    getRate scan table (some update.currencyFrom) (some update.currencyTo) (some instant) ≠
      none := by
  have sound : (Database.empty.run history).rate.Sound zone :=
    (Database.coveredIn_run sameZone (sound_empty zone)).1
  obtain ⟨continuous, delivered⟩ :=
    Sessions.delivered_run (fresh.continuous sound scripts) fresh.delivered runs
  have noneLeft : reached.calls session = [] := by
    refine Sessions.committed_calls (fun other isCommitted => ?_) runs session committed
    cases (fresh.idle other).symm.trans isCommitted
  obtain ⟨past, split, begins⟩ := delivered session (by rw [committed]; exact Phase.noConfusion)
  rw [noneLeft, committed, show ahead [] .committed = [] from rfl, List.append_nil] at split
  have first := (begins update (split ▸ called) (begun.trans_lt below) (fun _ => false)
    (.inl committed)).committed
  obtain ⟨period, member, atDate, proper⟩ := first
  rw [getRate_ne_none_iff, selectRows_ne_zero_iff, RateTable.timeline, isTable]
  exact covered_from_of_linked (continuous.linked update.pair)
    ⟨period, member, proper.covers_start⟩ (atDate.trans_le begun) below

theorem second_call_is_answered : ∃ (reached : Sessions) (table : RateTable),
    Sessions.run .utc (Database.empty.run (openingTransactions ++ [firstDelivery])).currency
        ⟨firstWorld, dayAfterCalls⟩ undoneTurns = some reached ∧
      table.rows = committedRows reached.world.heap ∧
      ∀ scan, getRate scan table (some usd.id) (some rub.id) (some (.onDay 9500)) ≠ none := by
  obtain ⟨reached, runs⟩ := Option.isSome_iff_exists.mp undoneTurns_possible
  have atEnd : ∀ sessions ∈ Sessions.run .utc
      (Database.empty.run (openingTransactions ++ [firstDelivery])).currency
      ⟨firstWorld, dayAfterCalls⟩ undoneTurns, sessions.world.phase 1 = .committed ∧
        ((committedRows sessions.world.heap).map RateRow.key).Nodup := by decide
  obtain ⟨committed, keyUnique⟩ := atEnd reached runs
  exact ⟨reached, ⟨_, keyUnique⟩, runs, rfl, fun scan => concurrent_calls_are_answered .utc
    (openingTransactions ++ [firstDelivery]) firstHistory_zone dayAfterCalls firstWorld
    firstWorld_fresh undoneTurns reached runs 1 committed
    ⟨usd.id, rub.id, .finite 98 0, .onDay 9002⟩ (List.mem_singleton_self _) ⟨_, keyUnique⟩ rfl scan
    (.onDay 9500) (by decide) (by decide)⟩

end ApostolRates
