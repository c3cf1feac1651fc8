import ApostolRates.Commits
import ApostolRates.Database

/-!
# Transactions of several calls side by side

A callback makes its calls of `update_rate` one after the other in a transaction of its
own.  Every call runs as it does in concurrent transactions of one call; it sees what
the calls before it have written, and what they have written stays open until the
transaction ends.  A call that raises undoes the block of the callback, and nothing
that the transaction has written remains: here this is `abort`, which is possible at
any time and all that is left after an entry that cannot be read.  The currencies stay
as they are.
-/

set_option autoImplicit false

namespace ApostolRates

open ThreeValued ValidTime Rollback Versions

/-- The calls of `update_rate` that a transaction makes one after the other. -/
def Transaction.calls (transaction : Transaction) (currency : CurrencyTable) :
    List (Except PgError Update) :=
  match transaction.statement with
  | .updateRate pCurrencyFrom pCurrencyTo pValue pDateFrom =>
      [nonNullUpdate pCurrencyFrom pCurrencyTo pValue pDateFrom]
  | .updateRateNow pCurrencyFrom pCurrencyTo pValue =>
      [nonNullUpdate pCurrencyFrom pCurrencyTo pValue (some transaction.now)]
  | .exchangeRateDone pRequest =>
      replyCalls (transaction.context currency) ((transaction.httpFetch pRequest).getD Fetch.null)
  | _ => []

/-- The transactions that run side by side, each with the calls that it has still to
finish; the first of them is the one that runs. -/
structure Sessions where
  world : World
  calls : Session → List (Except PgError Update)

/-- A step of the running call, the return of the call, or the end of the transaction. -/
inductive Turn where
  | call (event : Event)
  | next (session : Session)
  | commit (session : Session)
  | abort (session : Session)

def Turn.session : Turn → Session
  | .call event => event.session
  | .next session | .commit session | .abort session => session

def Event.Within : Event → Prop
  | .commit _ | .abort _ => False
  | _ => True

instance : (event : Event) → Decidable event.Within
  | .commit _ | .abort _ => .isFalse id
  | .select _ _ | .startUpdate _ | .updateRow _ _ | .finishUpdate _ | .insert _ => .isTrue trivial

def World.abortOf (world : World) (session : Session) : World :=
  { heap := world.heap.map (Slot.abort session)
    phase := Function.update world.phase session .aborted }

namespace Sessions

section
variable (zone : TimeZone) (currency : CurrencyTable)

def advance (sessions : Sessions) : Turn → Option Sessions
  | .call event =>
      match sessions.calls event.session with
      | .ok update :: _ =>
          if event.Within then
            (sessions.world.advance zone currency (fun _ => update) event).map fun world =>
              { sessions with world := world }
          else none
      | _ => none
  | .next session =>
      match sessions.calls session, sessions.world.phase session with
      | _ :: rest, .finished _ =>
          some
            { world := sessions.world.enter session .idle
              calls := Function.update sessions.calls session rest }
      | _, _ => none
  | .commit session =>
      match sessions.calls session, sessions.world.phase session with
      | [], .idle => some { sessions with world := sessions.world.commitOf session }
      | _, _ => none
  | .abort session =>
      if (sessions.world.phase session).Ended then none
      else some { sessions with world := sessions.world.abortOf session }

def run (sessions : Sessions) (turns : List Turn) : Option Sessions :=
  Traces.trace (Sessions.advance zone currency) sessions turns

/-- An `UPDATE` comes to its rows in one fixed order, in which a row keeps its place
when a new version replaces it.  A sequential scan need not: PostgreSQL stores the new
version elsewhere, so that scans of an older and of a newer snapshot may come to two rows
in opposite orders. -/
def TakesFirst (sessions : Sessions) : Turn → Prop
  | .call (.updateRow session index) =>
      (sessions.world.phase session).targets.head? = some index
  | _ => True

instance (sessions : Sessions) : (turn : Turn) → Decidable (sessions.TakesFirst turn)
  | .call (.updateRow session index) =>
      inferInstanceAs (Decidable ((sessions.world.phase session).targets.head? = some index))
  | .call (.select _ _) | .call (.startUpdate _) | .call (.finishUpdate _) | .call (.insert _)
  | .call (.commit _) | .call (.abort _) | .next _ | .commit _ | .abort _ => .isTrue trivial

def advanceInOrder (sessions : Sessions) (turn : Turn) : Option Sessions :=
  if sessions.TakesFirst turn then sessions.advance zone currency turn else none

/-- An interleaving in which every `UPDATE` comes to its rows in this fixed order. -/
def runInOrder (sessions : Sessions) (turns : List Turn) : Option Sessions :=
  Traces.trace (Sessions.advanceInOrder zone currency) sessions turns

end

section
variable {zone : TimeZone} {currency : CurrencyTable} {sessions after : Sessions}
variable {session : Session} {event : Event}

/-! What each turn can do. -/

theorem advance_call (success : sessions.advance zone currency (.call event) = some after) :
    ∃ update rest world, sessions.calls event.session = .ok update :: rest ∧ event.Within ∧
      sessions.world.advance zone currency (fun _ => update) event = some world ∧
      after = { sessions with world := world } := by
  simp only [advance] at success
  split at success
  · rename_i update rest calls
    split at success
    · rename_i within
      obtain ⟨world, advanced, rfl⟩ := Option.map_eq_some_iff.mp success
      exact ⟨update, rest, world, calls, within, advanced, rfl⟩
    · cases success
  · cases success

theorem advance_next (success : sessions.advance zone currency (.next session) = some after) :
    ∃ call rest found, sessions.calls session = call :: rest ∧
      sessions.world.phase session = .finished found ∧
      after =
        { world := sessions.world.enter session .idle
          calls := Function.update sessions.calls session rest } := by
  simp only [advance] at success
  split at success
  · rename_i call rest found calls phase
    cases success
    exact ⟨call, rest, found, calls, phase, rfl⟩
  · cases success

theorem advance_commit (success : sessions.advance zone currency (.commit session) = some after) :
    sessions.calls session = [] ∧ sessions.world.phase session = .idle ∧
      after = { sessions with world := sessions.world.commitOf session } := by
  simp only [advance] at success
  split at success
  · rename_i calls phase
    cases success
    exact ⟨calls, phase, rfl⟩
  · cases success

theorem advance_abort (success : sessions.advance zone currency (.abort session) = some after) :
    ¬ (sessions.world.phase session).Ended ∧
      after = { sessions with world := sessions.world.abortOf session } := by
  simp only [advance] at success
  split at success
  · cases success
  · rename_i isOpen
    cases success
    exact ⟨isOpen, rfl⟩

theorem advance_others {turn : Turn}
    (success : sessions.advance zone currency turn = some after) {other : Session}
    (differs : other ≠ turn.session) :
    after.calls other = sessions.calls other ∧
      after.world.phase other = sessions.world.phase other := by
  cases turn with
  | call event =>
      obtain ⟨update, rest, world, _, within, advanced, rfl⟩ := advance_call success
      refine ⟨rfl, ?_⟩
      cases event with
      | select session found =>
          obtain ⟨_, _, rfl⟩ := World.advance_select advanced
          exact Function.update_of_ne differs _ _
      | startUpdate session =>
          obtain ⟨_, _, rfl⟩ := World.advance_startUpdate advanced
          exact Function.update_of_ne differs _ _
      | updateRow session index =>
          obtain ⟨_, _, _, _, _, _, _, ⟨_, _, _, _, rfl⟩ | ⟨_, rfl⟩⟩ :=
            World.advance_updateRow advanced
          · exact Function.update_of_ne differs _ _
          · exact Function.update_of_ne differs _ _
      | finishUpdate session =>
          obtain ⟨_, _, rfl⟩ := World.advance_finishUpdate advanced
          exact Function.update_of_ne differs _ _
      | insert session =>
          obtain ⟨_, _, _, _, rfl⟩ := World.advance_insert advanced
          exact Function.update_of_ne differs _ _
      | commit session => exact absurd within id
      | abort session => exact absurd within id
  | next session =>
      obtain ⟨_, _, _, _, _, rfl⟩ := advance_next success
      exact ⟨Function.update_of_ne differs _ _, Function.update_of_ne differs _ _⟩
  | commit session =>
      obtain ⟨_, _, rfl⟩ := advance_commit success
      exact ⟨rfl, Function.update_of_ne differs _ _⟩
  | abort session =>
      obtain ⟨_, rfl⟩ := advance_abort success
      exact ⟨rfl, Function.update_of_ne differs _ _⟩

theorem advanceInOrder_eq_some {turn : Turn} :
    sessions.advanceInOrder zone currency turn = some after ↔
      sessions.TakesFirst turn ∧ sessions.advance zone currency turn = some after := by
  unfold advanceInOrder
  split
  · rename_i first
    exact (and_iff_right first).symm
  · rename_i first
    exact iff_of_false (by simp) fun both => first both.1

end

end Sessions

/-! ## The calls of a transaction -/

section
variable {transaction : Transaction} {currency : CurrencyTable} {updates : List Update}

theorem Transaction.updates_eq_ok :
    transaction.updates currency = .ok updates ↔
      transaction.calls currency = updates.map .ok := by
  have single : ∀ attempt : Except PgError Update,
      attempt.map ([·]) = .ok updates ↔ [attempt] = updates.map .ok := by
    intro attempt
    rw [except_map_eq_ok]
    constructor
    · rintro ⟨update, rfl, rfl⟩
      rfl
    · intro same
      cases updates with
      | nil => cases same
      | cons update rest =>
          obtain ⟨rfl, noMore⟩ := List.cons_eq_cons.mp same
          rw [List.map_eq_nil_iff.mp noMore.symm]
          exact ⟨update, rfl, rfl⟩
  unfold Transaction.updates Transaction.calls
  cases transaction.statement with
  | updateRate pCurrencyFrom pCurrencyTo pValue pDateFrom => exact single _
  | updateRateNow pCurrencyFrom pCurrencyTo pValue => exact single _
  | exchangeRateDone pRequest => exact replyUpdates_eq_ok
  | _ => cases updates <;> simp

theorem Transaction.calls_ofOneBase (transaction : Transaction) (currency : CurrencyTable) :
    OfOneBase (transaction.calls currency) := by
  unfold Transaction.calls
  split
  · exact ofOneBase_singleton _
  · exact ofOneBase_singleton _
  · exact replyCalls_ofOneBase _ _
  · exact ofOneBase_nil

end

end ApostolRates
