import ApostolRates.Concurrency

/-!
# Calls in the order of their dates

A call that inserts has room for its row when the later calls of its pair wait with
their `UPDATE` until it has committed.  Until then no row of the pair starts after its
date, and every row in force there lasts up to `max_date()`, so that the end it has
remembered is still right, however long ago it looked.
-/

set_option autoImplicit false

namespace ApostolRates

open ThreeValued ValidTime Versions Traces

/-- Of two calls for one pair that both commit, the one with the later date starts its
`UPDATE` after the other one has committed. -/
def InDateOrder (calls : Session → Update) (events : List Event) : Prop :=
  ∀ session other, Event.commit session ∈ events → Event.commit other ∈ events →
    (calls session).pair = (calls other).pair → (calls session).date < (calls other).date →
      ¬ [Event.startUpdate other, Event.commit session].Sublist events

/-- The same where a step stands, of the sessions that commit in the end. -/
def World.InTurn (calls : Session → Update) (lasts : Session → Prop) (world : World) :
    Event → Prop
  | .startUpdate other => lasts other → ∀ session, lasts session →
      (calls session).pair = (calls other).pair → (calls session).date < (calls other).date →
        world.phase session = .committed
  | .commit session => lasts session
  | _ => True

/-- What a session that commits in the end can rely on until then. -/
structure World.Timely (zone : TimeZone) (calls : Session → Update) (lasts : Session → Prop)
    (world : World) : Prop where
  placed : ∀ session, lasts session → world.phase session ≠ .committed →
    ∀ row ∈ committedRows world.heap, row.pair = (calls session).pair →
      row.validFromDate ≤ (calls session).date ∧
        (row.validToDate = zone.maxDate ∨ row.validToDate ≤ (calls session).date)
  remembers : ∀ session, lasts session →
    ((calls session).newRow zone (world.phase session).found).validToDate = zone.maxDate
  takes : ∀ session, lasts session → (world.phase session).Writing →
    (world.phase session).TakesAll
      (fun row => (calls session).Matches row ∧ row.validFromDate < (calls session).date)
      (world.heap.map (Slot.untouched session))
  started : ∀ session other, lasts session → lasts other →
    (calls session).pair = (calls other).pair → (calls session).date < (calls other).date →
      (world.phase other).Writing ∨ world.phase other = .committed →
        world.phase session = .committed

section
variable {zone : TimeZone} {currency : CurrencyTable} {calls : Session → Update}
variable {lasts : Session → Prop} {world after start reached : World} {session : Session}
variable {found : Option RateRow} {event : Event} {events : List Event} {table : RateTable}

/-! ## At the start -/

theorem World.Fresh.timely (fresh : start.Fresh table) (sound : table.Sound zone)
    (later : ∀ session, ∀ row ∈ table.rows, row.validFromDate < (calls session).date) :
    start.Timely zone calls lasts where
  placed session _ _ row member _ := by
    rw [fresh.rows] at member
    refine ⟨(later session row member).le, ?_⟩
    have period : row.period ∈ table.timeline row.pair := mem_timelineOf.mpr ⟨row, member, rfl, rfl⟩
    rcases ((sound row.pair).bounded _ period).lt_or_eq with before | atTop
    · obtain ⟨_, isNext, meets, _⟩ := (sound row.pair).linked _ period before
      obtain ⟨next, nextMember, _, rfl⟩ := mem_timelineOf.mp isNext
      exact .inr (meets.symm.trans_le (later session next nextMember).le)
    · exact .inl atTop
  remembers session _ := by
    rw [fresh.idle session]
    rfl
  takes session _ writing := by
    rw [fresh.idle session] at writing
    exact writing.elim
  started session other _ _ _ _ begun := by
    rw [fresh.idle other] at begun
    rcases begun with writing | committed
    · exact writing.elim
    · cases committed

/-! ## Steps before the commit -/

theorem World.Timely.step (timely : world.Timely zone calls lasts) (phase : Phase)
    (heap : Heap Session RateRow) (isOpen : world.phase session ≠ .committed)
    (staysOpen : phase ≠ .committed) (rows : committedRows heap = committedRows world.heap)
    (others : ∀ other, other ≠ session →
      heap.map (Slot.untouched other) = world.heap.map (Slot.untouched other) ∨
        heap.map (Slot.untouched other) = world.heap.map (Slot.untouched other) ++ [none])
    (remembers : lasts session →
      ((calls session).newRow zone phase.found).validToDate = zone.maxDate)
    (takes : lasts session → phase.Writing → phase.TakesAll
      (fun row => (calls session).Matches row ∧ row.validFromDate < (calls session).date)
      (heap.map (Slot.untouched session)))
    (begun : phase.Writing → lasts session → ∀ earlier, lasts earlier →
      (calls earlier).pair = (calls session).pair → (calls earlier).date < (calls session).date →
        world.phase earlier = .committed) :
    World.Timely zone calls lasts
      { heap := heap, phase := Function.update world.phase session phase } where
  placed reader lasting notCommitted row member := by
    rw [rows] at member
    refine timely.placed reader lasting (fun committed => notCommitted ?_) row member
    exact committed_update isOpen phase reader committed
  remembers reader lasting := by
    by_cases own : reader = session
    · subst own
      simp only [Function.update_self]
      exact remembers lasting
    · simp only [Function.update_of_ne own]
      exact timely.remembers reader lasting
  takes writer lasting writing := by
    by_cases own : writer = session
    · subst own
      simp only [Function.update_self] at writing ⊢
      exact takes lasting writing
    · simp only [Function.update_of_ne own] at writing ⊢
      rcases others writer own with same | grown
      · rw [same]
        exact timely.takes writer lasting writing
      · rw [grown]
        exact (timely.takes writer lasting writing).append_none
  started earlier other lasting otherLasts samePair before begins := by
    refine committed_update isOpen phase earlier ?_
    by_cases own : other = session
    · subst own
      simp only [Function.update_self] at begins
      exact begun (begins.resolve_right staysOpen) otherLasts earlier lasting samePair before
    · simp only [Function.update_of_ne own] at begins
      exact timely.started earlier other lasting otherLasts samePair before begins

theorem World.Timely.enter (timely : world.Timely zone calls lasts) (phase : Phase)
    (isOpen : world.phase session ≠ .committed) (staysOpen : phase ≠ .committed)
    (remembers : lasts session →
      ((calls session).newRow zone phase.found).validToDate = zone.maxDate)
    (takes : lasts session → phase.Writing → phase.TakesAll
      (fun row => (calls session).Matches row ∧ row.validFromDate < (calls session).date)
      (world.heap.map (Slot.untouched session)))
    (begun : phase.Writing → lasts session → ∀ earlier, lasts earlier →
      (calls earlier).pair = (calls session).pair → (calls earlier).date < (calls session).date →
        world.phase earlier = .committed) :
    (world.enter session phase).Timely zone calls lasts :=
  timely.step phase world.heap isOpen staysOpen rfl (fun _ _ => .inl rfl) remembers takes begun

theorem World.Timely.begun (timely : world.Timely zone calls lasts) {phase : Phase}
    (current : world.phase session = phase) (writing : phase.Writing) (lasting : lasts session)
    (earlier : Session) (earlierLasts : lasts earlier)
    (samePair : (calls earlier).pair = (calls session).pair)
    (before : (calls earlier).date < (calls session).date) :
    world.phase earlier = .committed :=
  timely.started earlier session earlierLasts lasting samePair before (.inl (current ▸ writing))

theorem World.Timely.remembers_select (timely : world.Timely zone calls lasts)
    (inv : world.Inv zone calls) (idle : world.phase session = .idle)
    (taken : world.MayTake session (calls session) found) (lasting : lasts session) :
    ((calls session).newRow zone found).validToDate = zone.maxDate := by
  cases found with
  | none => rfl
  | some row =>
      obtain ⟨holds, slot, member, seen⟩ := taken
      have notWriting : ¬ (world.phase session).Writing := by
        rw [idle]
        exact id
      rw [Slot.visible_of_none (inv.own_eq_none notWriting member)] at seen
      obtain ⟨samePair, _, inside⟩ := ((calls session).matches_iff row).mp holds
      have notCommitted : world.phase session ≠ .committed := by
        rw [idle]
        exact Phase.noConfusion
      have placed := timely.placed session lasting notCommitted row
        (mem_committedRows.mpr ⟨slot, member, seen⟩) samePair
      exact placed.2.resolve_right (not_le.mpr inside)

/-! ## Commits -/

theorem World.Inv.committed_cases (inv : world.Inv zone calls)
    (finished : world.phase session = .finished found) {row : RateRow}
    (member : row ∈ committedRows (world.commitOf session).heap) :
    row ∈ committedRows world.heap ∨
      (∃ old ∈ committedRows world.heap, (calls session).Matches old ∧
        row = (calls session).edit found old) ∨
      ¬ (calls session).Overwrites found ∧ row = (calls session).newRow zone found := by
  have tracks := inv.of_phase finished trivial
  obtain ⟨after, afterMember, committed⟩ := mem_committedRows.mp member
  obtain ⟨slot, slotMember, rfl⟩ := List.mem_map.mp afterMember
  rw [Slot.committed_commit] at committed
  cases written : slot.own session with
  | none =>
      rw [written, Option.none_or] at committed
      exact .inl (mem_committedRows.mpr ⟨slot, slotMember, committed⟩)
  | some changed =>
      rw [written, Option.some_or] at committed
      cases committed
      cases before : slot.committed with
      | some old =>
          obtain ⟨holds, same⟩ := tracks.own_edited slotMember before written
          exact .inr (.inl ⟨old, mem_committedRows.mpr ⟨slot, slotMember, before⟩, holds, same⟩)
      | none =>
          have added := tracks.own_added slotMember before written
          rw [Phase.added_finished] at added
          split at added
          · cases added
          · rename_i inserts
            exact .inr (.inr ⟨inserts, List.mem_singleton.mp added⟩)

/-- Two sessions that last and have both begun their writing do not differ in their dates,
while one of them is still open. -/
theorem World.Timely.sameDate (timely : world.Timely zone calls lasts)
    (finished : world.phase session = .finished found) (lasting : lasts session)
    {writer : Session} (writerLasts : lasts writer) (writing : (world.phase writer).Writing)
    (samePair : (calls session).pair = (calls writer).pair) :
    (calls session).date = (calls writer).date := by
  rcases lt_trichotomy (calls session).date (calls writer).date with earlier | same | later
  · have committed := timely.started session writer lasting writerLasts samePair earlier
      (.inl writing)
    cases finished.symm.trans committed
  · exact same
  · have committed := timely.begun finished trivial lasting writer writerLasts samePair.symm later
    rw [committed] at writing
    exact writing.elim

theorem World.Timely.placed_commit (timely : world.Timely zone calls lasts)
    (inv : world.Inv zone calls) (finished : world.phase session = .finished found)
    (lasting : lasts session) {reader : Session} (readerLasts : lasts reader)
    (notCommitted : world.phase reader ≠ .committed) {row : RateRow}
    (member : row ∈ committedRows (world.commitOf session).heap)
    (samePair : row.pair = (calls reader).pair) :
    row.validFromDate ≤ (calls reader).date ∧
      (row.validToDate = zone.maxDate ∨ row.validToDate ≤ (calls reader).date) := by
  have notLater : (calls session).pair = (calls reader).pair →
      (calls session).date ≤ (calls reader).date := by
    intro pairs
    by_contra later
    exact notCommitted (timely.begun finished trivial lasting reader readerLasts pairs.symm
      (not_le.mp later))
  rcases inv.committed_cases finished member with before | ⟨old, before, holds, rfl⟩ | ⟨_, rfl⟩
  · exact timely.placed reader readerLasts notCommitted row before samePair
  · rw [(calls session).edit_pair] at samePair
    obtain ⟨starts, stops⟩ := timely.placed reader readerLasts notCommitted old before samePair
    rw [(calls session).edit_validFromDate]
    refine ⟨starts, ?_⟩
    rcases (calls session).edit_validToDate found old with same | cut
    · rw [same]
      exact stops
    · rw [cut]
      have ownPair := (((calls session).matches_iff old).mp holds).1
      exact .inr (notLater (ownPair.symm.trans samePair))
  · have remembers := timely.remembers session lasting
    rw [finished] at remembers
    exact ⟨notLater samePair, .inl remembers⟩

theorem World.Timely.takes_commit (timely : world.Timely zone calls lasts)
    (inv : world.Inv zone calls) (finished : world.phase session = .finished found)
    (lasting : lasts session) {writer : Session} (writerLasts : lasts writer)
    (differs : writer ≠ session) (writing : (world.phase writer).Writing) :
    (world.phase writer).TakesAll
      (fun row => (calls writer).Matches row ∧ row.validFromDate < (calls writer).date)
      ((world.commitOf session).heap.map (Slot.untouched writer)) := by
  refine inv.takesAll_commit finished differs (timely.takes writer writerLasts writing) ?_ ?_
  · rintro old ⟨holds, starts⟩
    rw [(calls session).edit_validFromDate] at starts
    exact ⟨(calls session).matches_of_edit holds, starts⟩
  · rintro _ ⟨holds, starts⟩
    have samePair := (((calls writer).matches_iff _).mp holds).1
    exact absurd (timely.sameDate finished lasting writerLasts writing samePair) starts.ne

theorem World.Timely.commit (timely : world.Timely zone calls lasts) (inv : world.Inv zone calls)
    (finished : world.phase session = .finished found) (lasting : lasts session) :
    (world.commitOf session).Timely zone calls lasts where
  placed reader readerLasts notCommitted row member samePair := by
    have differs : reader ≠ session := by
      rintro rfl
      exact notCommitted (Function.update_self _ _ _)
    rw [commitOf_phase_of_ne differs] at notCommitted
    exact timely.placed_commit inv finished lasting readerLasts notCommitted member samePair
  remembers reader readerLasts := by
    by_cases own : reader = session
    · subst own
      simp only [World.commitOf, Function.update_self]
      rfl
    · rw [commitOf_phase_of_ne own]
      exact timely.remembers reader readerLasts
  takes writer writerLasts writing := by
    have differs : writer ≠ session := by
      rintro rfl
      simp only [World.commitOf, Function.update_self] at writing
      exact writing
    rw [commitOf_phase_of_ne differs] at writing ⊢
    exact timely.takes_commit inv finished lasting writerLasts differs writing
  started earlier other earlierLasts otherLasts samePair before begins := by
    have notCommitted : world.phase session ≠ .committed := by simp [finished]
    refine committed_update notCommitted _ earlier ?_
    refine timely.started earlier other earlierLasts otherLasts samePair before ?_
    by_cases own : other = session
    · subst own
      rw [finished]
      exact .inl trivial
    · rwa [commitOf_phase_of_ne own] at begins

theorem World.Timely.advance (timely : world.Timely zone calls lasts) (inv : world.Inv zone calls)
    (inTurn : world.InTurn calls lasts event)
    (success : world.advance zone currency calls event = some after) :
    after.Timely zone calls lasts := by
  cases event with
  | select session found =>
      obtain ⟨idle, taken, rfl⟩ := advance_select success
      exact timely.enter _ (by simp [idle]) (by simp) (timely.remembers_select inv idle taken)
        (fun _ writing => writing.elim) fun writing => writing.elim
  | startUpdate session =>
      obtain ⟨found, selected, rfl⟩ := advance_startUpdate success
      have remembers := timely.remembers session
      rw [selected] at remembers
      refine timely.enter _ (by simp [selected]) (by simp) remembers (fun _ _ => ?_)
        fun _ => inTurn
      exact fun index old located chosen =>
        takesAll_start world session _ index old located chosen.1
  | updateRow session index =>
      obtain ⟨found, targets, slot, member, updating, located, unlocked, outcome⟩ :=
        advance_updateRow success
      have remembers := timely.remembers session
      have takes := timely.takes session
      rw [updating] at remembers takes
      have begun := timely.begun updating trivial
      rcases outcome with ⟨row, _, _, _, rfl⟩ | ⟨unmatched, rfl⟩
      · refine timely.step _ _ (by simp [updating]) (by simp) (committedRows_write _ located) ?_
          remembers (fun lasting _ => ?_) fun _ => begun
        · intro other differs
          exact .inl (map_set_of_eq located (Slot.untouched_write_of_ne unlocked differs.symm _))
        · rw [List.map_set, Slot.untouched_write_self]
          refine (takes lasting trivial).take ?_
          rw [List.length_map]
          exact (List.getElem?_eq_some_iff.mp located).1
      · refine timely.enter _ (by simp [updating]) (by simp) remembers
          (fun lasting _ => (takes lasting trivial).skip ?_) fun _ => begun
        intro old oldLocated chosen
        obtain ⟨other, otherLocated, unwritten, isOld⟩ := untouched_located oldLocated
        obtain rfl : slot = other := Option.some.inj (located.symm.trans otherLocated)
        exact unmatched old (by rw [Slot.visible_of_none unwritten, isOld]) chosen.1
  | finishUpdate session =>
      obtain ⟨found, updating, rfl⟩ := advance_finishUpdate success
      have remembers := timely.remembers session
      have takes := timely.takes session
      rw [updating] at remembers takes
      have begun := timely.begun updating trivial
      split
      · exact timely.enter _ (by simp [updating]) (by simp) remembers
          (fun lasting _ => takes lasting trivial) fun _ => begun
      · exact timely.enter _ (by simp [updating]) (by simp) remembers
          (fun lasting _ => takes lasting trivial) fun _ => begun
  | insert session =>
      obtain ⟨found, inserting, _, _, rfl⟩ := advance_insert success
      have remembers := timely.remembers session
      have takes := timely.takes session
      rw [inserting] at remembers takes
      refine timely.step _ _ (by simp [inserting]) (by simp) (committedRows_insert _) ?_ remembers
        (fun lasting _ => ?_) fun _ => timely.begun inserting trivial
      · intro other _
        refine .inr ?_
        rw [List.map_append, List.map_singleton, Slot.untouched_inserted]
      · rw [List.map_append, List.map_singleton, Slot.untouched_inserted]
        exact (takes lasting trivial).append_none
  | commit session =>
      obtain ⟨found, finished, rfl⟩ := advance_commit success
      exact timely.commit inv finished inTurn
  | abort session =>
      obtain ⟨isOpen, rfl⟩ := advance_abort success
      refine timely.step _ _ ?_ (by simp) committedRows_abort ?_ (fun _ => rfl)
        (fun _ writing => writing.elim) fun writing => writing.elim
      · intro committed
        rw [committed] at isOpen
        exact isOpen trivial
      · intro other differs
        refine .inl ?_
        rw [List.map_map]
        exact List.map_congr_left fun slot _ => Slot.untouched_abort_of_ne differs.symm slot

theorem World.committed_advance (success : world.advance zone currency calls event = some after)
    (committed : world.phase session = .committed) : after.phase session = .committed := by
  have kept : ∀ {other : Session} {phase next : Phase}, world.phase other = phase →
      phase ≠ .committed → Function.update world.phase other next session = .committed := by
    rintro other _ next rfl isOpen
    exact committed_update isOpen next session committed
  cases event with
  | select other found =>
      obtain ⟨idle, _, rfl⟩ := advance_select success
      exact kept idle Phase.noConfusion
  | startUpdate other =>
      obtain ⟨found, selected, rfl⟩ := advance_startUpdate success
      exact kept selected Phase.noConfusion
  | updateRow other index =>
      obtain ⟨found, targets, slot, _, updating, _, _, outcome⟩ := advance_updateRow success
      rcases outcome with ⟨row, _, _, _, rfl⟩ | ⟨_, rfl⟩
      · exact kept updating Phase.noConfusion
      · exact kept updating Phase.noConfusion
  | finishUpdate other =>
      obtain ⟨found, updating, rfl⟩ := advance_finishUpdate success
      exact kept updating Phase.noConfusion
  | insert other =>
      obtain ⟨found, inserting, _, _, rfl⟩ := advance_insert success
      exact kept inserting Phase.noConfusion
  | commit other =>
      obtain ⟨found, finished, rfl⟩ := advance_commit success
      exact kept finished Phase.noConfusion
  | abort other =>
      obtain ⟨isOpen, rfl⟩ := advance_abort success
      refine committed_update (fun otherCommitted => isOpen ?_) _ session committed
      rw [otherCommitted]
      trivial

theorem World.committed_of_mem (runs : start.run zone currency calls events = some reached)
    (member : Event.commit session ∈ events) : reached.phase session = .committed := by
  induction events using List.reverseRecOn generalizing reached with
  | nil => exact absurd member List.not_mem_nil
  | append_singleton earlier last ih =>
      obtain ⟨middle, before, success⟩ := trace_concat.mp runs
      rcases List.mem_append.mp member with isEarlier | isLast
      · exact World.committed_advance success (ih before isEarlier)
      · cases List.mem_singleton.mp isLast
        obtain ⟨_, _, rfl⟩ := advance_commit success
        exact Function.update_self _ _ _

theorem InDateOrder.inTurn (ordered : InDateOrder calls events) {earlier : List Event}
    (isPart : earlier ++ [event] <+: events)
    (before : start.run zone currency calls earlier = some world) :
    world.InTurn calls (fun session => Event.commit session ∈ events) event := by
  obtain ⟨rest, rfl⟩ := isPart
  cases event with
  | startUpdate other =>
      intro otherLasts session lasting samePair earlierDate
      refine World.committed_of_mem before ?_
      have notAfter := ordered session other lasting otherLasts samePair earlierDate
      rcases List.mem_append.mp lasting with inside | isLater
      · rcases List.mem_append.mp inside with isEarlier | isThis
        · exact isEarlier
        · cases List.mem_singleton.mp isThis
      · refine absurd ?_ notAfter
        exact (List.sublist_append_right earlier [Event.startUpdate other]).append
          (List.singleton_sublist.mpr isLater)
  | commit session =>
      exact List.mem_append_left _ (List.mem_append_right _ (List.mem_singleton_self _))
  | _ => trivial

end

end ApostolRates
