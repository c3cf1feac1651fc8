import ApostolRates.Library.Traces
import ApostolRates.Library.Versions
import ApostolRates.Model.Timeline

/-!
# `update_rate` in concurrent transactions

Every session runs one call of `update_rate` in a transaction of its own, under
READ COMMITTED and without explicit locks.  A statement sees what was committed
when it started and what its own transaction has written.  `UPDATE` takes the rows
it has found one by one: on a row that an open transaction has written it waits,
and then it checks its `WHERE` clause again.  An index entry that another open
transaction may still make a duplicate waits as well.  A statement that waits or
raises has no successor here except `abort`, which is possible at any time.
-/

set_option autoImplicit false

namespace ApostolRates

open ThreeValued Versions

abbrev Session := Nat

/-- How far a transaction has come, with the row its `SELECT INTO` has taken. -/
inductive Phase where
  | idle
  | selected (found : Option RateRow)
  | updating (found : Option RateRow) (targets : List Nat)
  | inserting (found : Option RateRow)
  | finished (found : Option RateRow)
  | committed
  | aborted
  deriving DecidableEq

namespace Phase

def found : Phase → Option RateRow
  | .selected found | .updating found _ | .inserting found | .finished found => found
  | .idle | .committed | .aborted => none

def targets : Phase → List Nat
  | .updating _ targets => targets
  | _ => []

def Writing : Phase → Prop
  | .updating _ _ | .inserting _ | .finished _ => True
  | _ => False

def Ended : Phase → Prop
  | .committed | .aborted => True
  | _ => False

instance (phase : Phase) : Decidable phase.Ended := by
  cases phase <;> unfold Ended <;> infer_instance

end Phase

structure World where
  heap : Heap Session RateRow
  phase : Session → Phase

/-- One step of a session; `found` is what its `SELECT INTO` takes. -/
inductive Event where
  | select (session : Session) (found : Option RateRow)
  | startUpdate (session : Session)
  | updateRow (session : Session) (index : Nat)
  | finishUpdate (session : Session)
  | insert (session : Session)
  | commit (session : Session)
  | abort (session : Session)
  deriving DecidableEq

def Event.session : Event → Session
  | .select session _ | .startUpdate session | .updateRow session _ | .finishUpdate session
  | .insert session | .commit session | .abort session => session

/-- The `WHERE` clause of the statements. -/
def Update.Matches (update : Update) (row : RateRow) : Prop :=
  Holds (row.inForce (some update.currencyFrom) (some update.currencyTo) (some update.date))

instance (update : Update) (row : RateRow) : Decidable (update.Matches row) :=
  inferInstanceAs (Decidable (Holds _))

/-- What the `UPDATE` of the branch taken makes of a row. -/
def Update.edit (update : Update) (found : Option RateRow) (row : RateRow) : RateRow :=
  if update.Overwrites found then update.setValue row else update.setEnd row

namespace World

def enter (world : World) (session : Session) (phase : Phase) : World :=
  { world with phase := Function.update world.phase session phase }

/-- A row that `SELECT INTO` may take, or none when no row matches. -/
def MayTake (world : World) (session : Session) (update : Update) : Option RateRow → Prop
  | none => ∀ slot ∈ world.heap, ∀ row ∈ slot.visible session, ¬ update.Matches row
  | some row => update.Matches row ∧ ∃ slot ∈ world.heap, slot.visible session = some row

instance (world : World) (session : Session) (update : Update) (found : Option RateRow) :
    Decidable (world.MayTake session update found) := by
  cases found <;> unfold MayTake <;> infer_instance

def matching (world : World) (session : Session) (update : Update) : List Nat :=
  (List.range world.heap.length).filter fun index =>
    ((world.heap[index]?).bind (Slot.visible session)).any fun row => update.Matches row

/-- No slot makes an index entry of the session wait or a duplicate. -/
def KeyFree (session : Session) (row : RateRow) (slots : Heap Session RateRow) : Prop :=
  ∀ slot ∈ slots, ∀ other ∈ slot.respected session, other.key ≠ row.key

instance (session : Session) (row : RateRow) (slots : Heap Session RateRow) :
    Decidable (KeyFree session row slots) :=
  inferInstanceAs (Decidable (∀ slot ∈ slots, ∀ other ∈ slot.respected session, _))

section
variable (zone : TimeZone) (currency : CurrencyTable) (calls : Session → Update)

def advance (world : World) : Event → Option World
  | .select session found =>
      if world.phase session = .idle ∧ world.MayTake session (calls session) found then
        some (world.enter session (.selected found))
      else none
  | .startUpdate session =>
      match world.phase session with
      | .selected found =>
          some (world.enter session (.updating found (world.matching session (calls session))))
      | _ => none
  | .updateRow session index =>
      match world.phase session, world.heap[index]? with
      | .updating found targets, some slot =>
          if index ∈ targets ∧ slot.Unlocked session then
            match (slot.visible session).filter fun row => (calls session).Matches row with
            | some row =>
                let changed := (calls session).edit found row
                if KeyFree session changed (world.heap.eraseIdx index) then
                  some
                    { heap := world.heap.set index (slot.write session changed)
                      phase := Function.update world.phase session
                        (.updating found (targets.erase index)) }
                else none
            | none => some (world.enter session (.updating found (targets.erase index)))
          else none
      | _, _ => none
  | .finishUpdate session =>
      match world.phase session with
      | .updating found [] =>
          some (world.enter session
            (if (calls session).Overwrites found then .finished found else .inserting found))
      | _ => none
  | .insert session =>
      match world.phase session with
      | .inserting found =>
          let row := (calls session).newRow zone found
          if (calls session).Known currency ∧ KeyFree session row world.heap then
            some
              { heap := world.heap ++ [Slot.inserted session row]
                phase := Function.update world.phase session (.finished found) }
          else none
      | _ => none
  | .commit session =>
      match world.phase session with
      | .finished _ =>
          some
            { heap := world.heap.map (Slot.commit session)
              phase := Function.update world.phase session .committed }
      | _ => none
  | .abort session =>
      if (world.phase session).Ended then none
      else
        some
          { heap := world.heap.map (Slot.abort session)
            phase := Function.update world.phase session .aborted }

variable {zone currency calls} {world after : World} {session : Session}

/-! What each step can do. -/

theorem advance_select {found : Option RateRow}
    (success : world.advance zone currency calls (.select session found) = some after) :
    world.phase session = .idle ∧ world.MayTake session (calls session) found ∧
      after = world.enter session (.selected found) := by
  simp only [advance] at success
  split at success
  · rename_i allowed
    cases success
    exact ⟨allowed.1, allowed.2, rfl⟩
  · cases success

theorem advance_startUpdate
    (success : world.advance zone currency calls (.startUpdate session) = some after) :
    ∃ found, world.phase session = .selected found ∧
      after = world.enter session (.updating found (world.matching session (calls session))) := by
  simp only [advance] at success
  split at success
  · rename_i found phase
    cases success
    exact ⟨found, phase, rfl⟩
  · cases success

theorem advance_updateRow {index : Nat}
    (success : world.advance zone currency calls (.updateRow session index) = some after) :
    ∃ found targets slot, index ∈ targets ∧ world.phase session = .updating found targets ∧
      world.heap[index]? = some slot ∧ slot.Unlocked session ∧
      ((∃ row, slot.visible session = some row ∧ (calls session).Matches row ∧
          KeyFree session ((calls session).edit found row) (world.heap.eraseIdx index) ∧
          after =
            { heap := world.heap.set index (slot.write session ((calls session).edit found row))
              phase := Function.update world.phase session
                (.updating found (targets.erase index)) }) ∨
        (∀ row, slot.visible session = some row → ¬ (calls session).Matches row) ∧
          after = world.enter session (.updating found (targets.erase index))) := by
  simp only [advance] at success
  split at success
  · rename_i found targets slot phase located
    split at success
    · rename_i allowed
      refine ⟨found, targets, slot, allowed.1, phase, located, allowed.2, ?_⟩
      split at success
      · rename_i row matched
        obtain ⟨seen, holds⟩ := Option.filter_eq_some_iff.mp matched
        split at success
        · rename_i free
          cases success
          exact Or.inl ⟨row, seen, of_decide_eq_true holds, free, rfl⟩
        · cases success
      · rename_i unmatched
        cases success
        refine Or.inr ⟨fun row seen holds => ?_, rfl⟩
        have kept : (slot.visible session).filter (fun row => (calls session).Matches row) =
            some row := Option.filter_eq_some_iff.mpr ⟨seen, decide_eq_true holds⟩
        rw [unmatched] at kept
        cases kept
    · cases success
  · cases success

theorem advance_finishUpdate
    (success : world.advance zone currency calls (.finishUpdate session) = some after) :
    ∃ found, world.phase session = .updating found [] ∧
      after = world.enter session
        (if (calls session).Overwrites found then .finished found else .inserting found) := by
  simp only [advance] at success
  split at success
  · rename_i found phase
    cases success
    exact ⟨found, phase, rfl⟩
  · cases success

theorem advance_insert
    (success : world.advance zone currency calls (.insert session) = some after) :
    ∃ found, world.phase session = .inserting found ∧ (calls session).Known currency ∧
      KeyFree session ((calls session).newRow zone found) world.heap ∧
      after =
        { heap := world.heap ++ [Slot.inserted session ((calls session).newRow zone found)]
          phase := Function.update world.phase session (.finished found) } := by
  simp only [advance] at success
  split at success
  · rename_i found phase
    split at success
    · rename_i allowed
      cases success
      exact ⟨found, phase, allowed.1, allowed.2, rfl⟩
    · cases success
  · cases success

theorem advance_commit
    (success : world.advance zone currency calls (.commit session) = some after) :
    ∃ found, world.phase session = .finished found ∧
      after =
        { heap := world.heap.map (Slot.commit session)
          phase := Function.update world.phase session .committed } := by
  simp only [advance] at success
  split at success
  · rename_i found phase
    cases success
    exact ⟨found, phase, rfl⟩
  · cases success

theorem advance_abort
    (success : world.advance zone currency calls (.abort session) = some after) :
    ¬ (world.phase session).Ended ∧
      after =
        { heap := world.heap.map (Slot.abort session)
          phase := Function.update world.phase session .aborted } := by
  simp only [advance] at success
  split at success
  · cases success
  · rename_i isOpen
    cases success
    exact ⟨isOpen, rfl⟩

variable (zone currency calls)

def run (world : World) (events : List Event) : Option World :=
  Traces.trace (World.advance zone currency calls) world events

end

/-- Nothing is open yet, and the committed rows are those of the table. -/
structure Fresh (rate : RateTable) (world : World) : Prop where
  idle : ∀ session, world.phase session = .idle
  quiet : ∀ slot ∈ world.heap, slot.pending = none
  rows : committedRows world.heap = rate.rows

end World

def idleWorld : World := ⟨[], fun _ => .idle⟩

theorem idleWorld_fresh : idleWorld.Fresh .empty :=
  ⟨fun _ => rfl, fun _ member => (nomatch member), rfl⟩

end ApostolRates
