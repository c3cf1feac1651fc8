import ApostolRates.Library.Outcomes
import ApostolRates.Sessions

/-!
# What a turn can do

The turns of the sessions, each with what it needs and what it changes, and the rule for
what holds of every row that may be left: it is enough that a write and an insert keep it
where their transaction commits, and that it outlasts the turns of the others.
-/

set_option autoImplicit false

namespace ApostolRates

open ThreeValued ValidTime Versions

/-! ## Turns -/

/-- What a turn can do. -/
inductive Sessions.Move (zone : TimeZone) (sessions : Sessions) : Turn → Sessions → Prop
  | select {session : Session} {update : Update} {rest : List (Except PgError Update)}
      {found : Option RateRow} (calls : sessions.calls session = .ok update :: rest)
      (idle : sessions.world.phase session = .idle)
      (taken : sessions.world.MayTake session update found) :
      Move zone sessions (.call (.select session found))
        { sessions with world := sessions.world.enter session (.selected found) }
  | start {session : Session} {update : Update} {rest : List (Except PgError Update)}
      {found : Option RateRow} (calls : sessions.calls session = .ok update :: rest)
      (selected : sessions.world.phase session = .selected found) :
      Move zone sessions (.call (.startUpdate session))
        { sessions with
          world := sessions.world.enter session
            (.updating found (sessions.world.matching session update)) }
  | skip {session : Session} {update : Update} {rest : List (Except PgError Update)}
      {found : Option RateRow} {targets : List Nat} {index : Nat}
      (calls : sessions.calls session = .ok update :: rest)
      (updating : sessions.world.phase session = .updating found targets) :
      Move zone sessions (.call (.updateRow session index))
        { sessions with
          world := sessions.world.enter session (.updating found (targets.erase index)) }
  | write {session : Session} {update : Update} {rest : List (Except PgError Update)}
      {found : Option RateRow} {targets : List Nat} {index : Nat} {slot : Slot Session RateRow}
      {row : RateRow} (calls : sessions.calls session = .ok update :: rest)
      (updating : sessions.world.phase session = .updating found targets)
      (located : sessions.world.heap[index]? = some slot) (unlocked : slot.Unlocked session)
      (seen : slot.visible session = some row) (holds : update.Matches row) :
      Move zone sessions (.call (.updateRow session index))
        { sessions with
          world :=
            { heap := sessions.world.heap.set index (slot.write session (update.edit found row))
              phase := Function.update sessions.world.phase session
                (.updating found (targets.erase index)) } }
  | finish {session : Session} {update : Update} {rest : List (Except PgError Update)}
      {found : Option RateRow} (calls : sessions.calls session = .ok update :: rest)
      (updating : sessions.world.phase session = .updating found []) :
      Move zone sessions (.call (.finishUpdate session))
        { sessions with
          world := sessions.world.enter session
            (if update.Overwrites found then .finished found else .inserting found) }
  | insert {session : Session} {update : Update} {rest : List (Except PgError Update)}
      {found : Option RateRow} (calls : sessions.calls session = .ok update :: rest)
      (inserting : sessions.world.phase session = .inserting found) :
      Move zone sessions (.call (.insert session))
        { sessions with
          world :=
            { heap := sessions.world.heap ++ [Slot.inserted session (update.newRow zone found)]
              phase := Function.update sessions.world.phase session (.finished found) } }
  | next {session : Session} {call : Except PgError Update} {rest : List (Except PgError Update)}
      {found : Option RateRow} (calls : sessions.calls session = call :: rest)
      (finished : sessions.world.phase session = .finished found) :
      Move zone sessions (.next session)
        { world := sessions.world.enter session .idle
          calls := Function.update sessions.calls session rest }
  | commit {session : Session} (calls : sessions.calls session = [])
      (idle : sessions.world.phase session = .idle) :
      Move zone sessions (.commit session)
        { sessions with world := sessions.world.commitOf session }
  | abort {session : Session} (isOpen : ¬ (sessions.world.phase session).Ended) :
      Move zone sessions (.abort session)
        { sessions with world := sessions.world.abortOf session }

section
variable {zone : TimeZone} {currency : CurrencyTable} {sessions after : Sessions} {turn : Turn}

theorem Sessions.advance_move (success : sessions.advance zone currency turn = some after) :
    sessions.Move zone turn after := by
  cases turn with
  | call event =>
      obtain ⟨update, rest, world, calls, within, advanced, rfl⟩ := advance_call success
      cases event with
      | select session found =>
          obtain ⟨idle, taken, rfl⟩ := World.advance_select advanced
          exact .select calls idle taken
      | startUpdate session =>
          obtain ⟨found, selected, rfl⟩ := World.advance_startUpdate advanced
          exact .start calls selected
      | updateRow session index =>
          obtain ⟨found, targets, slot, _, updating, located, unlocked, outcome⟩ :=
            World.advance_updateRow advanced
          rcases outcome with ⟨row, seen, holds, _, rfl⟩ | ⟨_, rfl⟩
          · exact .write calls updating located unlocked seen holds
          · exact .skip calls updating
      | finishUpdate session =>
          obtain ⟨found, updating, rfl⟩ := World.advance_finishUpdate advanced
          exact .finish calls updating
      | insert session =>
          obtain ⟨found, inserting, _, _, rfl⟩ := World.advance_insert advanced
          exact .insert calls inserting
      | commit session => exact absurd within id
      | abort session => exact absurd within id
  | next session =>
      obtain ⟨call, rest, found, calls, finished, rfl⟩ := advance_next success
      exact .next calls finished
  | commit session =>
      obtain ⟨calls, idle, rfl⟩ := advance_commit success
      exact .commit calls idle
  | abort session =>
      obtain ⟨isOpen, rfl⟩ := advance_abort success
      exact .abort isOpen

theorem Sessions.Move.calls_suffix (move : sessions.Move zone turn after) (session : Session) :
    after.calls session <:+ sessions.calls session := by
  cases move with
  | @next other call rest found calls finished =>
      dsimp only
      by_cases same : session = other
      · subst same
        rw [calls, Function.update_self]
        exact List.suffix_cons call rest
      · rw [Function.update_of_ne same]
  | _ => exact List.suffix_rfl

theorem Sessions.Move.commit_of_committed (move : sessions.Move zone turn after)
    (committed : after.world.phase turn.session = .committed) :
    turn = .commit turn.session ∧ after.calls turn.session = [] := by
  cases move with
  | select | start | skip | write | insert | next | abort =>
      cases (Function.update_self _ _ _).symm.trans committed
  | finish =>
      have committed := (Function.update_self _ _ _).symm.trans committed
      split at committed <;> cases committed
  | commit calls => exact ⟨rfl, calls⟩

theorem Sessions.ended_advance (success : sessions.advance zone currency turn = some after)
    {session : Session} (ended : (sessions.world.phase session).Ended) :
    after.world.phase session = sessions.world.phase session := by
  by_cases own : session = turn.session
  · subst own
    have atWork : ∀ {phase : Phase}, sessions.world.phase turn.session = phase →
        phase.Ended := by
      rintro _ rfl
      exact ended
    cases Sessions.advance_move success with
    | select _ before | start _ before | skip _ before | write _ before | finish _ before
    | insert _ before | next _ before | commit _ before => exact absurd (atWork before) id
    | abort isOpen => exact absurd ended isOpen
  · exact (Sessions.advance_others success own).2

end

/-! ## The rows that may be left -/

def Turn.ending : Turn → (Session → Bool) → Session → Bool
  | .commit session, ends => Function.update ends session true
  | .abort session, ends => Function.update ends session false
  | .call _, ends | .next _, ends => ends

theorem update_fewer {ends more : Session → Bool}
    (fewer : ∀ session, ends session = true → more session = true) (other : Session)
    (value : Bool) (session : Session)
    (committing : Function.update ends other value session = true) :
    Function.update more other value session = true := by
  rcases eq_or_ne session other with rfl | differs
  · rwa [Function.update_self] at committing ⊢
  · rw [Function.update_of_ne differs] at committing ⊢
    exact fewer session committing

theorem Turn.ending_mono (turn : Turn) {ends more : Session → Bool}
    (fewer : ∀ session, ends session = true → more session = true) :
    ∀ session, turn.ending ends session = true → turn.ending more session = true := by
  cases turn with
  | call event => exact fewer
  | next other => exact fewer
  | commit other | abort other => exact update_fewer fewer other _

theorem Turn.ending_others (turn : Turn) {ends : Session → Bool} {session : Session}
    (differs : session ≠ turn.session) : turn.ending ends session = ends session := by
  cases turn with
  | call event => rfl
  | next other => rfl
  | commit other | abort other => exact Function.update_of_ne differs _ _

/-- What the transaction has written is left, or will be. -/
def Sessions.Lasts (sessions : Sessions) (ends : Session → Bool) (session : Session) : Prop :=
  sessions.world.phase session = .committed ∨ ends session = true

section
variable {zone : TimeZone} {currency : CurrencyTable} {sessions after : Sessions} {turn : Turn}
variable {ends : Session → Bool} {session : Session}

theorem Sessions.Lasts.advance (lasts : sessions.Lasts (turn.ending ends) session)
    (success : sessions.advance zone currency turn = some after) : after.Lasts ends session := by
  rcases lasts with committed | committing
  · have ended : (sessions.world.phase session).Ended := by
      rw [committed]
      trivial
    exact .inl ((Sessions.ended_advance success ended).trans committed)
  · by_cases own : session = turn.session
    · subst own
      cases turn with
      | call event => exact .inr committing
      | next other => exact .inr committing
      | commit other =>
          obtain ⟨_, _, rfl⟩ := Sessions.advance_commit success
          exact .inl (Function.update_self _ _ _)
      | abort other =>
          rw [Turn.ending, Turn.session, Function.update_self] at committing
          cases committing
    · rw [turn.ending_others own] at committing
      exact .inr committing

/-- Who lasts after a turn has lasted before it, unless the turn undoes the transaction. -/
theorem Sessions.Lasts.before (lasts : after.Lasts ends session)
    (success : sessions.advance zone currency turn = some after)
    (notAborted : after.world.phase session ≠ .aborted) :
    sessions.Lasts (turn.ending ends) session := by
  by_cases own : session = turn.session
  · subst own
    rcases lasts with committed | committing
    · rw [((Sessions.advance_move success).commit_of_committed committed).1]
      exact .inr (Function.update_self _ _ _)
    · cases turn with
      | call event => exact .inr committing
      | next other => exact .inr committing
      | commit other => exact .inr (Function.update_self _ _ _)
      | abort other =>
          obtain ⟨_, rfl⟩ := Sessions.advance_abort success
          exact absurd (Function.update_self _ _ _) notAborted
  · refine lasts.imp (fun committed => ?_) fun committing => ?_
    · rwa [(Sessions.advance_others success own).2] at committed
    · rwa [turn.ending_others own]

end

structure Sessions.Edits (sessions : Sessions) (turn : Turn) (after : Sessions)
    (session : Session) (update : Update) (found : Option RateRow) (row : RateRow) : Prop where
  calls : ∃ rest, sessions.calls session = .ok update :: rest ∧
    after.calls session = .ok update :: rest
  updating : ∃ targets remaining, sessions.world.phase session = .updating found targets ∧
    after.world.phase session = .updating found remaining
  holds : update.Matches row
  within : ∀ ends, turn.ending ends = ends
  left : ∀ ends, ends session = true → update.edit found row ∈ outcome ends after.world.heap

structure Sessions.Adds (zone : TimeZone) (sessions : Sessions) (turn : Turn) (after : Sessions)
    (session : Session) (update : Update) (found : Option RateRow) : Prop where
  calls : ∃ rest, sessions.calls session = .ok update :: rest
  inserting : sessions.world.phase session = .inserting found
  within : ∀ ends, turn.ending ends = ends
  left : ∀ ends, ends session = true → update.newRow zone found ∈ outcome ends after.world.heap

section
variable (Holds : Sessions → (Session → Bool) → RateRow → Prop)

/-- It holds of all rows that are left, however the open transactions end, and of the rows
that the running calls have found, as long as these end with a commit. -/
structure Sessions.Everywhere (sessions : Sessions) : Prop where
  left : ∀ ends, ∀ row ∈ outcome ends sessions.world.heap, Holds sessions ends row
  found : ∀ session update rest row, sessions.calls session = .ok update :: rest →
    (sessions.world.phase session).found = some row →
      update.Matches row ∧ ∀ ends, ends session = true → Holds sessions ends row

variable {Holds} {zone : TimeZone} {currency : CurrencyTable} {sessions after : Sessions}
variable {turn : Turn}

theorem World.Fresh.everywhere {world : World} {rate : RateTable} (fresh : world.Fresh rate)
    {scripts : Session → List (Except PgError Update)}
    (initial : ∀ ends, ∀ row ∈ rate.rows, Holds ⟨world, scripts⟩ ends row) :
    Sessions.Everywhere Holds ⟨world, scripts⟩ where
  left ends row member := by
    dsimp only at member
    rw [outcome_of_quiet fresh.quiet, fresh.rows] at member
    exact initial ends row member
  found session update rest row _ isFound := by
    dsimp only at isFound
    rw [fresh.idle session] at isFound
    cases isFound

theorem Sessions.Everywhere.left_advance (everywhere : sessions.Everywhere Holds)
    (move : sessions.Move zone turn after)
    (kept : ∀ ends row, Holds sessions (turn.ending ends) row → Holds after ends row)
    (edited : ∀ session update found row, sessions.Edits turn after session update found row →
      ∀ ends, ends session = true → Holds sessions ends row →
        Holds after ends (update.edit found row))
    (added : ∀ session update found, sessions.Adds zone turn after session update found →
      ∀ ends, ends session = true →
        (∀ row, found = some row → update.Matches row ∧ Holds sessions ends row) →
          Holds after ends (update.newRow zone found)) :
    ∀ ends, ∀ row ∈ outcome ends after.world.heap, Holds after ends row := by
  intro ends row member
  cases move with
  | select | start | skip | finish | next => exact kept ends row (everywhere.left ends row member)
  | @write session update rest found targets index slot old calls updating located unlocked seen
      holds =>
      rcases mem_outcome_write located unlocked member with before | ⟨committing, rfl⟩
      · exact kept ends row (everywhere.left ends row before)
      · have left : old ∈ outcome ends sessions.world.heap := by
          refine mem_outcome.mpr ⟨slot, List.mem_of_getElem? located, ?_⟩
          rw [Slot.version_of_visible unlocked committing, seen]
        refine edited session update found old ⟨⟨rest, calls, calls⟩,
          ⟨targets, _, updating, Function.update_self _ _ _⟩, holds, fun _ => rfl,
          fun more isMore => mem_outcome_written located isMore unlocked⟩ ends committing
          (everywhere.left ends old left)
  | @insert session update rest found calls inserting =>
      rcases mem_outcome_insert.mp member with before | ⟨committing, rfl⟩
      · exact kept ends row (everywhere.left ends row before)
      · refine added session update found ⟨⟨rest, calls⟩, inserting, fun _ => rfl,
          fun more isMore => mem_outcome_insert.mpr (.inr ⟨isMore, rfl⟩)⟩ ends committing
          fun taken isFound => ?_
        have atHand : (sessions.world.phase session).found = some taken := by
          rw [inserting]
          exact isFound
        obtain ⟨holds, always⟩ := everywhere.found session update rest taken calls atHand
        exact ⟨holds, always ends committing⟩
  | commit =>
      rw [World.commitOf, outcome_commit] at member
      exact kept ends row (everywhere.left _ row member)
  | abort =>
      rw [World.abortOf, outcome_abort] at member
      exact kept ends row (everywhere.left _ row member)

theorem Sessions.Everywhere.found_advance (everywhere : sessions.Everywhere Holds)
    (success : sessions.advance zone currency turn = some after)
    (grows : ∀ ends more row, (∀ session, ends session = true → more session = true) →
      Holds sessions ends row → Holds sessions more row)
    (kept : ∀ ends row, Holds sessions (turn.ending ends) row → Holds after ends row) :
    ∀ session update rest row, after.calls session = .ok update :: rest →
      (after.world.phase session).found = some row →
        update.Matches row ∧ ∀ ends, ends session = true → Holds after ends row := by
  intro session update rest row calls isFound
  by_cases own : session = turn.session
  · subst own
    have earlier : turn.ending = id → sessions.calls turn.session = .ok update :: rest →
        (sessions.world.phase turn.session).found = some row →
          update.Matches row ∧ ∀ ends, ends turn.session = true → Holds after ends row := by
      intro same before isBefore
      obtain ⟨holds, always⟩ := everywhere.found turn.session update rest row before isBefore
      refine ⟨holds, fun ends committing => kept ends row ?_⟩
      rw [same]
      exact always ends committing
    have entered : ∀ {phases : Session → Phase} {phase : Phase},
        (Function.update phases turn.session phase turn.session).found = some row →
          phase.found = some row := by
      intro phases phase isEntered
      rwa [Function.update_self] at isEntered
    cases Sessions.advance_move success with
    | @select session update' rest' found before idle taken =>
        obtain rfl : found = some row := entered isFound
        cases before.symm.trans calls
        obtain ⟨holds, slot, member, seen⟩ := taken
        refine ⟨holds, fun ends committing => kept ends row ?_⟩
        -- what the statement sees is left if its transaction alone commits
        refine grows (fun other => decide (other = session)) ends row (fun other isSession => ?_)
          (everywhere.left _ row (mem_outcome.mpr ⟨slot, member, Slot.version_alone.trans seen⟩))
        rwa [of_decide_eq_true isSession]
    | start _ selected =>
        have isFound := entered isFound
        exact earlier rfl calls ((congrArg Phase.found selected).trans isFound)
    | skip _ updating | write _ updating =>
        have isFound := entered isFound
        exact earlier rfl calls ((congrArg Phase.found updating).trans isFound)
    | finish _ updating =>
        refine earlier rfl calls ((congrArg Phase.found updating).trans ?_)
        have isFound := entered isFound
        split at isFound <;> exact isFound
    | insert _ inserting =>
        have isFound := entered isFound
        exact earlier rfl calls ((congrArg Phase.found inserting).trans isFound)
    | next | commit | abort => cases entered isFound
  · obtain ⟨sameCalls, samePhase⟩ := Sessions.advance_others success own
    rw [sameCalls] at calls
    rw [samePhase] at isFound
    obtain ⟨holds, always⟩ := everywhere.found session update rest row calls isFound
    refine ⟨holds, fun ends committing => kept ends row (always _ ?_)⟩
    rwa [turn.ending_others own]

/-- A turn keeps what its write and its insert keep. -/
theorem Sessions.Everywhere.advance (everywhere : sessions.Everywhere Holds)
    (success : sessions.advance zone currency turn = some after)
    (grows : ∀ ends more row, (∀ session, ends session = true → more session = true) →
      Holds sessions ends row → Holds sessions more row)
    (kept : ∀ ends row, Holds sessions (turn.ending ends) row → Holds after ends row)
    (edited : ∀ session update found row, sessions.Edits turn after session update found row →
      ∀ ends, ends session = true → Holds sessions ends row →
        Holds after ends (update.edit found row))
    (added : ∀ session update found, sessions.Adds zone turn after session update found →
      ∀ ends, ends session = true →
        (∀ row, found = some row → update.Matches row ∧ Holds sessions ends row) →
          Holds after ends (update.newRow zone found)) :
    after.Everywhere Holds :=
  ⟨everywhere.left_advance (Sessions.advance_move success) kept edited added,
    everywhere.found_advance success grows kept⟩

end
end ApostolRates
