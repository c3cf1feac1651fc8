import ApostolRates.Library.Stale
import ApostolRates.Transactions

/-!
# Commits

Between the `SELECT INTO` of a call and its commit other sessions commit rows that
the call has not seen.  A call that inserts keeps the periods apart exactly when
there is still room for its row at the commit.
-/

set_option autoImplicit false

namespace ApostolRates

open ThreeValued ValidTime Versions

def World.timeline (world : World) (pair : Uuid × Uuid) : Timeline Timestamptz Numeric :=
  timelineOf (committedRows world.heap) pair

/-- The committed rows hold at most one answer for each pair and instant. -/
def World.Apart (world : World) : Prop :=
  ∀ (currencyFrom currencyTo : Uuid) (instant : Timestamptz),
    (selectRows (committedRows world.heap) (some currencyFrom) (some currencyTo)
      (some instant)).card ≤ 1

/-- Another transaction has committed a call for the same pair and date. -/
def World.Rival (calls : Session → Update) (world : World) (session : Session) : Prop :=
  ∃ other, other ≠ session ∧ world.phase other = .committed ∧
    (calls other).pair = (calls session).pair ∧ (calls other).date = (calls session).date

/-- The row that the session inserts overlaps none that is committed by now: its
`UPDATE` has taken every row in force at its date, and no other row of the pair
starts between its date and the end that its `SELECT INTO` has left it with. -/
structure World.HasRoom (zone : TimeZone) (calls : Session → Update) (world : World)
    (session : Session) : Prop where
  taken : ∀ slot ∈ world.heap, ∀ old ∈ slot.untouched session, ¬ (calls session).Matches old
  clear : ∀ row ∈ committedRows world.heap, row.pair = (calls session).pair →
    row.validFromDate < row.validToDate → (calls session).date < row.validFromDate →
    ((calls session).newRow zone (world.phase session).found).validToDate ≤ row.validFromDate

def World.Allows (zone : TimeZone) (calls : Session → Update) (world : World) : Event → Prop
  | .commit session =>
      ¬ (calls session).Overwrites (world.phase session).found → world.HasRoom zone calls session
  | _ => True

instance (zone : TimeZone) (calls : Session → Update) (world : World) (session : Session) :
    Decidable (world.HasRoom zone calls session) :=
  decidable_of_iff
    ((∀ slot ∈ world.heap, ∀ old ∈ slot.untouched session, ¬ (calls session).Matches old) ∧
      ∀ row ∈ committedRows world.heap, row.pair = (calls session).pair →
        row.validFromDate < row.validToDate → (calls session).date < row.validFromDate →
        ((calls session).newRow zone (world.phase session).found).validToDate ≤ row.validFromDate)
    ⟨fun both => ⟨both.1, both.2⟩, fun room => ⟨room.taken, room.clear⟩⟩

instance (zone : TimeZone) (calls : Session → Update) (world : World) (event : Event) :
    Decidable (world.Allows zone calls event) := by
  cases event <;> unfold World.Allows <;> infer_instance

section
variable {zone : TimeZone} (update : Update) {other : Update} {found : Option RateRow}
variable {row : RateRow}

theorem Update.not_overwrites_none : ¬ update.Overwrites none := fun overwrites =>
  nomatch overwrites

theorem Update.remembered_eq :
    remembered zone.maxDate (found.map RateRow.period) =
      (update.newRow zone found).validToDate := by
  cases found <;> rfl

theorem Update.newRow_proper (below : update.date < zone.maxDate)
    (matched : ∀ row, found = some row → update.Matches row) :
    update.date < (update.newRow zone found).validToDate := by
  cases found with
  | none => exact below
  | some row => exact ((update.matches_iff row).mp (matched row rfl)).2.2

theorem Update.matches_of_edit (holds : other.Matches (update.edit found row)) :
    other.Matches row := by
  obtain ⟨samePair, covers⟩ := (other.matches_iff _).mp holds
  rw [update.edit_pair] at samePair
  refine (other.matches_iff row).mpr ⟨samePair, ?_⟩
  unfold Update.edit at covers
  by_cases own : row.pair = update.pair
  · split at covers
    · rw [update.setValue_period row own] at covers
      exact (Period.assign_covers _ _ _ _).mp covers
    · rw [update.setEnd_period row own] at covers
      exact ⟨by simpa using covers.1, lt_of_lt_of_le covers.2 (row.period.cut_stop_le _)⟩
  · rw [update.setValue_of_ne row own, update.setEnd_of_ne row own, ite_self] at covers
    exact covers

theorem not_atMostOne_of_pair {rows : Multiset RateRow} {left right : RateRow}
    {pair : Uuid × Uuid} {instant : Timestamptz} (two : {left, right} ≤ rows)
    (leftPair : left.pair = pair) (rightPair : right.pair = pair)
    (leftCovers : left.period.Covers instant) (rightCovers : right.period.Covers instant) :
    ¬ AtMostOne (timelineOf rows pair) := by
  intro single
  subst leftPair
  have fewer : timelineOf {left, right} left.pair ≤ timelineOf rows left.pair :=
    Multiset.map_le_map (Multiset.filter_le_filter _ two)
  have both : (covering instant (timelineOf {left, right} left.pair)).card = 2 := by
    rw [Multiset.insert_eq_cons, timelineOf_cons_self, ← rightPair, ← Multiset.cons_zero right,
      timelineOf_cons_self, covering_cons_of_covers _ leftCovers,
      covering_cons_of_covers _ rightCovers]
    rfl
  have once := (Multiset.card_le_card (Multiset.filter_le_filter _ fewer)).trans (single instant)
  rw [← covering, both] at once
  exact absurd once (by decide)

end

/-! ## What a commit does to the timelines -/

section
variable {zone : TimeZone} {currency : CurrencyTable} {calls : Session → Update}
variable {world after : World} {session : Session} {found : Option RateRow} {event : Event}

def World.commitOf (world : World) (session : Session) : World :=
  { heap := world.heap.map (Slot.commit session)
    phase := Function.update world.phase session .committed }

theorem commitOf_phase_of_ne {reader : Session} (differs : reader ≠ session) :
    (world.commitOf session).phase reader = world.phase reader :=
  Function.update_of_ne differs _ _

theorem mem_world_timeline {pair : Uuid × Uuid} {period : Period Timestamptz Numeric} :
    period ∈ world.timeline pair ↔
      ∃ slot ∈ world.heap, ∃ row, slot.committed = some row ∧ row.pair = pair ∧
        row.period = period := by
  simp only [World.timeline, mem_timelineOf, mem_committedRows]
  constructor
  · rintro ⟨row, ⟨slot, member, before⟩, samePair, same⟩
    exact ⟨slot, member, row, before, samePair, same⟩
  · rintro ⟨slot, member, row, before, samePair, same⟩
    exact ⟨row, ⟨slot, member, before⟩, samePair, same⟩

theorem World.Inv.commit_timeline (inv : world.Inv zone calls)
    (finished : world.phase session = .finished found)
    (taken : ∀ slot ∈ world.heap, ∀ old, slot.untouched session = some old →
      ¬ (calls session).Matches old) :
    (world.commitOf session).timeline (calls session).pair =
        revise zone.maxDate (calls session).date (calls session).value (found.map RateRow.period)
          (world.timeline (calls session).pair) ∧
      ∀ pair, pair ≠ (calls session).pair →
        (world.commitOf session).timeline pair = world.timeline pair := by
  have rows : committedRows (world.heap.map (Slot.commit session)) = _ :=
    (inv.of_phase finished trivial).commit_rows taken
  constructor
  · rw [World.timeline, World.commitOf, rows]
    exact (calls session).timeline_rows zone found _
  · intro pair differs
    rw [World.timeline, World.commitOf, rows]
    exact (calls session).timeline_rows_of_ne zone found _ differs

/-- When the look-up takes the same row now and no matching row has been missed, the
commit is a call of `update_rate` on the committed rows. -/
theorem World.Inv.commit_apply (inv : world.Inv zone calls) {scan : Scan} {rate after : RateTable}
    (before : rate.rows = committedRows world.heap)
    (committed : after.rows = committedRows (world.commitOf session).heap)
    (finished : world.phase session = .finished ((calls session).taken scan rate))
    (taken : ∀ slot ∈ world.heap, ∀ old, slot.untouched session = some old →
      ¬ (calls session).Matches old)
    (known : (calls session).Known currency) :
    (calls session).apply zone currency scan rate = .ok after := by
  have rows : committedRows (world.heap.map (Slot.commit session)) = _ :=
    (inv.of_phase finished trivial).commit_rows taken
  refine ((calls session).apply_eq_ok_iff zone currency scan rate).mpr ⟨?_, Or.inr known⟩
  rw [committed, World.commitOf, rows, before]

theorem World.Inv.commit_missed (inv : world.Inv zone calls)
    (finished : world.phase session = .finished found)
    (overwrites : (calls session).Overwrites found)
    (single : AtMostOne (world.timeline (calls session).pair))
    {slot : Slot Session RateRow} (member : slot ∈ world.heap) {old : RateRow}
    (missed : slot.untouched session = some old) (holds : (calls session).Matches old) :
    committedRows (world.heap.map (Slot.commit session)) = committedRows world.heap := by
  have tracks := inv.of_phase finished trivial
  obtain ⟨unwritten, before⟩ := Slot.untouched_eq_some.mp missed
  refine committedRows_congr ?_
  rw [List.map_map]
  refine List.map_congr_left fun other otherMember => ?_
  rw [Function.comp_apply, Slot.committed_commit]
  cases written : other.own session with
  | none => exact Option.none_or
  | some row =>
      cases otherBefore : other.committed with
      | none =>
          have added := tracks.own_added otherMember otherBefore written
          rw [Phase.added_finished, if_pos overwrites] at added
          cases added
      | some first =>
          have edited := (tracks.own_edited otherMember otherBefore written).1
          have differs : slot ≠ other := by
            rintro rfl
            rw [unwritten] at written
            cases written
          obtain ⟨oldPair, oldCovers⟩ := ((calls session).matches_iff _).mp holds
          obtain ⟨firstPair, firstCovers⟩ := ((calls session).matches_iff _).mp edited
          have two : ({old, first} : Multiset RateRow) ≤ committedRows world.heap :=
            pair_le_filterMap member otherMember differs before otherBefore
          exact absurd single (not_atMostOne_of_pair two oldPair firstPair oldCovers firstCovers)

theorem World.Inv.reaches (inv : world.Inv zone calls)
    (below : (calls session).date < zone.maxDate)
    (finished : world.phase session = .finished found) :
    (calls session).date < ((calls session).newRow zone found).validToDate :=
  (calls session).newRow_proper below fun row taken =>
    inv.matched_of_phase finished (show (Phase.finished found).found = some row from taken)

end
end ApostolRates
