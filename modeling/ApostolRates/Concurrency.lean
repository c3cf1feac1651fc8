import ApostolRates.Commits
import ApostolRates.Overlaps

/-!
# Concurrent updates

The periods stay apart in exactly those interleavings in which every call that
inserts still has room for its row when it commits, and then every committed value
can be read at its date.
-/

set_option autoImplicit false

namespace ApostolRates

open ThreeValued ValidTime Versions Traces

section
variable {zone : TimeZone} {currency : CurrencyTable} {calls : Session → Update}
variable {world after : World} {session : Session} {found : Option RateRow} {event : Event}

/-! ## Rows that an open statement has still to take -/

/-- Every such committed row that has not been written is still to be taken. -/
def Phase.TakesAll (Chosen : RateRow → Prop) (phase : Phase) (untouched : List (Option RateRow)) :
    Prop :=
  ∀ index old, untouched[index]? = some (some old) → Chosen old → index ∈ phase.targets

section
variable {Chosen : RateRow → Prop} {phase : Phase} {untouched : List (Option RateRow)}
variable {targets : List Nat} {index : Nat}

theorem Phase.TakesAll.append_none (takes : phase.TakesAll Chosen untouched) :
    phase.TakesAll Chosen (untouched ++ [none]) := fun other old located =>
  takes other old (getElem?_append_none located)

theorem Phase.TakesAll.take (takes : (Phase.updating found targets).TakesAll Chosen untouched)
    (inside : index < untouched.length) :
    (Phase.updating found (targets.erase index)).TakesAll Chosen (untouched.set index none) := by
  intro other old located holds
  have differs : index ≠ other := by
    rintro rfl
    rw [List.getElem?_set_self inside] at located
    cases located
  rw [List.getElem?_set_ne differs] at located
  exact (List.mem_erase_of_ne differs.symm).mpr (takes other old located holds)

theorem Phase.TakesAll.skip (takes : (Phase.updating found targets).TakesAll Chosen untouched)
    (unmatched : ∀ old, untouched[index]? = some (some old) → ¬ Chosen old) :
    (Phase.updating found (targets.erase index)).TakesAll Chosen untouched := by
  intro other old located holds
  have differs : other ≠ index := by
    rintro rfl
    exact unmatched old located holds
  exact (List.mem_erase_of_ne differs).mpr (takes other old located holds)

end

theorem untouched_located {index : Nat} {old : RateRow}
    (located : (world.heap.map (Slot.untouched session))[index]? = some (some old)) :
    ∃ slot, world.heap[index]? = some slot ∧ slot.own session = none ∧
      slot.committed = some old := by
  rw [List.getElem?_map, Option.map_eq_some_iff] at located
  obtain ⟨slot, slotLocated, untouched⟩ := located
  exact ⟨slot, slotLocated, Slot.untouched_eq_some.mp untouched⟩

theorem takesAll_start (world : World) (session : Session) (update : Update) :
    (Phase.updating found (world.matching session update)).TakesAll update.Matches
      (world.heap.map (Slot.untouched session)) := by
  intro index old located holds
  obtain ⟨slot, slotLocated, unwritten, before⟩ := untouched_located located
  have inside : index < world.heap.length := (List.getElem?_eq_some_iff.mp slotLocated).1
  refine List.mem_filter.mpr ⟨List.mem_range.mpr inside, ?_⟩
  simp [slotLocated, Slot.visible_of_none unwritten, before, holds]

/-! ## The invariant of the allowed interleavings -/

/-- No overlaps, a row that starts at the date of every call that overwrites, which
the `UPDATE` will take, and a row with the value and date of every committed call:
the last two unless another call for the same pair and date has been committed. -/
structure World.Good (calls : Session → Update) (world : World) : Prop where
  single : ∀ pair, AtMostOne (world.timeline pair)
  anchored : ∀ session, (calls session).Overwrites (world.phase session).found →
    StartsAt (calls session).date (world.timeline (calls session).pair)
  covered : ∀ session, (world.phase session).Writing →
    (calls session).Overwrites (world.phase session).found → world.Rival calls session ∨
      (world.phase session).TakesAll (calls session).Matches
        (world.heap.map (Slot.untouched session))
  recorded : ∀ session, world.phase session = .committed → world.Rival calls session ∨
    WrittenAt (calls session).date (calls session).value (world.timeline (calls session).pair)

theorem World.Fresh.good {table : RateTable} (fresh : world.Fresh table)
    (apart : NoOverlap table) : world.Good calls where
  single pair := by
    rw [World.timeline, fresh.rows]
    exact apart pair
  anchored session overwrites := by
    rw [fresh.idle session] at overwrites
    exact absurd overwrites (Update.not_overwrites_none _)
  covered session writing := by
    rw [fresh.idle session] at writing
    exact writing.elim
  recorded session committed := by
    rw [fresh.idle session] at committed
    cases committed

theorem World.Rival.mono (rival : world.Rival calls session)
    (kept : ∀ other, world.phase other = .committed → after.phase other = .committed) :
    after.Rival calls session := by
  obtain ⟨other, differs, committed, samePair, sameDate⟩ := rival
  exact ⟨other, differs, kept other committed, samePair, sameDate⟩

theorem committed_update (isOpen : world.phase session ≠ .committed) (phase : Phase)
    (other : Session) (committed : world.phase other = .committed) :
    Function.update world.phase session phase other = .committed := by
  have differs : other ≠ session := by
    rintro rfl
    exact isOpen committed
  rw [Function.update_of_ne differs, committed]

theorem World.Good.step (good : world.Good calls) (phase : Phase) (heap : Heap Session RateRow)
    (isOpen : world.phase session ≠ .committed) (staysOpen : phase ≠ .committed)
    (rows : committedRows heap = committedRows world.heap)
    (others : ∀ other, other ≠ session →
      heap.map (Slot.untouched other) = world.heap.map (Slot.untouched other) ∨
        heap.map (Slot.untouched other) = world.heap.map (Slot.untouched other) ++ [none])
    (anchored : (calls session).Overwrites phase.found →
      StartsAt (calls session).date (world.timeline (calls session).pair))
    (covered : phase.Writing → (calls session).Overwrites phase.found →
      world.Rival calls session ∨
        phase.TakesAll (calls session).Matches (heap.map (Slot.untouched session))) :
    World.Good calls
      { heap := heap, phase := Function.update world.phase session phase } := by
  have timelines : ∀ pair, timelineOf (committedRows heap) pair = world.timeline pair := by
    intro pair
    rw [rows]
    rfl
  refine ⟨?_, ?_, ?_, ?_⟩
  · intro pair
    rw [World.timeline, timelines]
    exact good.single pair
  · intro reader overwrites
    rw [World.timeline, timelines]
    by_cases isSession : reader = session
    · subst isSession
      simp only [Function.update_self] at overwrites
      exact anchored overwrites
    · simp only [Function.update_of_ne isSession] at overwrites
      exact good.anchored reader overwrites
  · intro writer writing overwrites
    by_cases isSession : writer = session
    · subst isSession
      simp only [Function.update_self] at writing overwrites ⊢
      exact (covered writing overwrites).imp_left fun rival =>
        rival.mono (committed_update isOpen phase)
    · simp only [Function.update_of_ne isSession] at writing overwrites ⊢
      refine (good.covered writer writing overwrites).imp
        (fun rival => rival.mono (committed_update isOpen phase)) fun takes => ?_
      rcases others writer isSession with same | grown
      · rwa [same]
      · rw [grown]
        exact takes.append_none
  · intro reader committed
    have differs : reader ≠ session := by
      rintro rfl
      simp only [Function.update_self] at committed
      exact staysOpen committed
    simp only [Function.update_of_ne differs] at committed
    rw [World.timeline, timelines]
    exact (good.recorded reader committed).imp_left fun rival =>
      rival.mono (committed_update isOpen phase)

/-- The commit of a call with room revises the timeline of its pair with the row
looked up long ago, if it changes anything at all. -/
theorem World.Good.commit_timeline (good : world.Good calls) (inv : world.Inv zone calls)
    (finished : world.phase session = .finished found)
    (room : ¬ (calls session).Overwrites found → world.HasRoom zone calls session) :
    (∀ pair, pair ≠ (calls session).pair →
        (world.commitOf session).timeline pair = world.timeline pair) ∧
      ((world.commitOf session).timeline (calls session).pair =
          revise zone.maxDate (calls session).date (calls session).value
            (found.map RateRow.period) (world.timeline (calls session).pair) ∨
        world.Rival calls session ∧
          (world.commitOf session).timeline (calls session).pair =
            world.timeline (calls session).pair) := by
  by_cases taken : ∀ slot ∈ world.heap, ∀ old, slot.untouched session = some old →
      ¬ (calls session).Matches old
  · obtain ⟨own, others⟩ := inv.commit_timeline finished taken
    exact ⟨others, Or.inl own⟩
  · have overwrites : (calls session).Overwrites found := by
      by_contra inserts
      exact taken (room inserts).taken
    push Not at taken
    obtain ⟨slot, member, old, missed, holds⟩ := taken
    have rows := inv.commit_missed finished overwrites (good.single _) member missed holds
    have timelines : ∀ pair, (world.commitOf session).timeline pair = world.timeline pair := by
      intro pair
      rw [World.timeline, World.commitOf, rows]
      rfl
    refine ⟨fun pair _ => timelines pair, Or.inr ⟨?_, timelines _⟩⟩
    have covered := good.covered session
    rw [finished] at covered
    refine (covered trivial overwrites).resolve_right fun all => ?_
    obtain ⟨index, located⟩ := List.mem_iff_getElem?.mp
      (List.mem_map.mpr ⟨slot, member, missed⟩)
    exact List.not_mem_nil (all index old located holds)

theorem World.Inv.takesAll_commit (inv : world.Inv zone calls)
    (finished : world.phase session = .finished found) {writer : Session}
    (differs : writer ≠ session) {Chosen : RateRow → Prop}
    (takes : (world.phase writer).TakesAll Chosen (world.heap.map (Slot.untouched writer)))
    (edited : ∀ old, Chosen ((calls session).edit found old) → Chosen old)
    (added : ¬ (calls session).Overwrites found → ¬ Chosen ((calls session).newRow zone found)) :
    (world.phase writer).TakesAll Chosen
      ((world.commitOf session).heap.map (Slot.untouched writer)) := by
  intro index old located holds
  have tracks := inv.of_phase finished trivial
  obtain ⟨after, afterLocated, unwritten, committed⟩ := untouched_located located
  rw [World.commitOf, List.getElem?_map, Option.map_eq_some_iff] at afterLocated
  obtain ⟨slot, slotLocated, rfl⟩ := afterLocated
  rw [Slot.own_commit_of_ne differs.symm] at unwritten
  have seen : ∀ first, slot.committed = some first → Chosen first →
      index ∈ (world.phase writer).targets := by
    intro first isFirst firstHolds
    refine takes index first ?_ firstHolds
    rw [List.getElem?_map, slotLocated, Option.map_some,
      Slot.untouched_eq_some.mpr ⟨unwritten, isFirst⟩]
  have member := List.mem_of_getElem? slotLocated
  rw [Slot.committed_commit] at committed
  cases written : slot.own session with
  | none =>
      rw [written, Option.none_or] at committed
      exact seen old committed holds
  | some row =>
      rw [written, Option.some_or] at committed
      cases committed
      cases isFirst : slot.committed with
      | some first =>
          obtain ⟨_, rfl⟩ := tracks.own_edited member isFirst written
          exact seen first isFirst (edited first holds)
      | none =>
          have isAdded := tracks.own_added member isFirst written
          rw [Phase.added_finished] at isAdded
          split at isAdded
          · cases isAdded
          · rename_i inserts
            rw [List.mem_singleton.mp isAdded] at holds
            exact absurd holds (added inserts)

/-- What another session commits gives an overwriting one no new row to take: a row
that is in force at its date and starts earlier would have met its own row. -/
theorem World.Good.takesAll_commit (good : world.Good calls) (inv : world.Inv zone calls)
    (finished : world.phase session = .finished found)
    (room : ¬ (calls session).Overwrites found → world.HasRoom zone calls session)
    {writer : Session} (differs : writer ≠ session)
    (takes : (world.phase writer).TakesAll (calls writer).Matches
      (world.heap.map (Slot.untouched writer)))
    (overwrites : (calls writer).Overwrites (world.phase writer).found)
    (unrelated : ¬ ((calls session).pair = (calls writer).pair ∧
      (calls session).date = (calls writer).date)) :
    (world.phase writer).TakesAll (calls writer).Matches
      ((world.commitOf session).heap.map (Slot.untouched writer)) := by
  refine inv.takesAll_commit finished differs takes
    (fun _ => (calls session).matches_of_edit) fun inserts holds => ?_
  obtain ⟨samePair, covers⟩ := ((calls writer).matches_iff _).mp holds
  obtain ⟨period, periodMember, starts, proper⟩ := good.anchored writer overwrites
  obtain ⟨anchor, anchorMember, anchorPair, rfl⟩ := mem_timelineOf.mp periodMember
  have late : (calls session).date < anchor.validFromDate := by
    refine lt_of_le_of_ne (covers.1.trans starts.ge) fun sameDate => ?_
    exact unrelated ⟨samePair, sameDate.trans starts⟩
  have clear := (room inserts).clear anchor anchorMember (anchorPair.trans samePair.symm)
    proper late
  rw [finished] at clear
  exact absurd covers.2 (not_lt.mpr (clear.trans starts.le))

/-! ### A commit with room -/

theorem World.Inv.inserted_reaches (inv : world.Inv zone calls)
    (below : (calls session).date < zone.maxDate)
    (finished : world.phase session = .finished found) :
    (calls session).date < remembered zone.maxDate (found.map RateRow.period) := by
  rw [(calls session).remembered_eq]
  exact inv.reaches below finished

theorem World.Good.anchor (good : world.Good calls)
    (finished : world.phase session = .finished found)
    (overwrites : (found.map RateRow.period).map Period.start = some (calls session).date) :
    StartsAt (calls session).date (world.timeline (calls session).pair) := by
  refine good.anchored session ?_
  rw [finished]
  exact (calls session).overwrites_iff.mp overwrites

theorem World.Good.single_commit (good : world.Good calls) (inv : world.Inv zone calls)
    (finished : world.phase session = .finished found)
    (room : ¬ (calls session).Overwrites found → world.HasRoom zone calls session)
    (pair : Uuid × Uuid) : AtMostOne ((world.commitOf session).timeline pair) := by
  obtain ⟨others, own⟩ := good.commit_timeline inv finished room
  by_cases samePair : pair = (calls session).pair
  · subst samePair
    rcases own with revised | ⟨_, same⟩
    · rw [revised]
      refine atMostOne_revise_of_clear (good.single _) fun inserts period member proper late => ?_
      obtain ⟨row, rowMember, rowPair, rfl⟩ := mem_timelineOf.mp member
      have clear := (room fun overwrites =>
        inserts ((calls session).overwrites_iff.mpr overwrites)).clear row rowMember rowPair proper
          late
      rw [finished] at clear
      rwa [(calls session).remembered_eq]
    · rw [same]
      exact good.single _
  · rw [others pair samePair]
    exact good.single pair

theorem World.Good.startsAt_commit (good : world.Good calls) (inv : world.Inv zone calls)
    (below : (calls session).date < zone.maxDate)
    (finished : world.phase session = .finished found)
    (room : ¬ (calls session).Overwrites found → world.HasRoom zone calls session)
    {pair : Uuid × Uuid} {instant : Timestamptz} (starts : StartsAt instant (world.timeline pair)) :
    StartsAt instant ((world.commitOf session).timeline pair) := by
  obtain ⟨others, own⟩ := good.commit_timeline inv finished room
  by_cases samePair : pair = (calls session).pair
  · subst samePair
    rcases own with revised | ⟨_, same⟩
    · rw [revised]
      exact starts.revise fun _ => inv.inserted_reaches below finished
    · rwa [same]
  · rwa [others pair samePair]

theorem World.Good.recorded_commit_self (good : world.Good calls) (inv : world.Inv zone calls)
    (below : (calls session).date < zone.maxDate)
    (finished : world.phase session = .finished found)
    (room : ¬ (calls session).Overwrites found → world.HasRoom zone calls session) :
    world.Rival calls session ∨ WrittenAt (calls session).date (calls session).value
      ((world.commitOf session).timeline (calls session).pair) := by
  rcases (good.commit_timeline inv finished room).2 with revised | ⟨rival, _⟩
  · rw [revised]
    exact Or.inr (writtenAt_revise (fun _ => inv.inserted_reaches below finished)
      (good.anchor finished))
  · exact Or.inl rival

theorem World.Good.writtenAt_commit (good : world.Good calls) (inv : world.Inv zone calls)
    (finished : world.phase session = .finished found)
    (room : ¬ (calls session).Overwrites found → world.HasRoom zone calls session)
    {pair : Uuid × Uuid} {instant : Timestamptz} {value : Numeric}
    (unrelated : ¬ ((calls session).pair = pair ∧ (calls session).date = instant))
    (written : WrittenAt instant value (world.timeline pair)) :
    WrittenAt instant value ((world.commitOf session).timeline pair) := by
  obtain ⟨others, own⟩ := good.commit_timeline inv finished room
  by_cases samePair : pair = (calls session).pair
  · subst samePair
    rcases own with revised | ⟨_, same⟩
    · rw [revised]
      exact written.revise (good.single _) (fun sameDate => unrelated ⟨rfl, sameDate.symm⟩)
        (good.anchor finished)
    · rwa [same]
  · rwa [others pair samePair]

theorem World.Good.commit (good : world.Good calls) (inv : world.Inv zone calls)
    (below : (calls session).date < zone.maxDate)
    (finished : world.phase session = .finished found)
    (room : ¬ (calls session).Overwrites found → world.HasRoom zone calls session) :
    (world.commitOf session).Good calls := by
  have isOpen : world.phase session ≠ .committed := by simp [finished]
  have rivals : ∀ {reader}, world.Rival calls reader →
      (world.commitOf session).Rival calls reader := fun rival =>
    rival.mono (committed_update isOpen _)
  have isRival : ∀ {reader}, reader ≠ session → (calls session).pair = (calls reader).pair ∧
      (calls session).date = (calls reader).date →
        (world.commitOf session).Rival calls reader := fun differs same =>
    ⟨session, differs.symm, Function.update_self _ _ _, same⟩
  refine ⟨good.single_commit inv finished room, ?_, ?_, ?_⟩
  · intro reader overwrites
    refine good.startsAt_commit inv below finished room (good.anchored reader ?_)
    by_cases isSession : reader = session
    · subst isSession
      simp only [World.commitOf, Function.update_self] at overwrites
      exact absurd overwrites (Update.not_overwrites_none _)
    · rwa [commitOf_phase_of_ne isSession] at overwrites
  · intro writer writing overwrites
    have differs : writer ≠ session := by
      rintro rfl
      simp only [World.commitOf, Function.update_self] at writing
      exact writing
    rw [commitOf_phase_of_ne differs] at writing overwrites ⊢
    by_cases same : (calls session).pair = (calls writer).pair ∧
        (calls session).date = (calls writer).date
    · exact Or.inl (isRival differs same)
    · exact (good.covered writer writing overwrites).imp rivals fun takes =>
        good.takesAll_commit inv finished room differs takes overwrites same
  · intro reader committed
    by_cases isSession : reader = session
    · subst isSession
      exact (good.recorded_commit_self inv below finished room).imp_left rivals
    · rw [commitOf_phase_of_ne isSession] at committed
      by_cases same : (calls session).pair = (calls reader).pair ∧
          (calls session).date = (calls reader).date
      · exact Or.inl (isRival isSession same)
      · exact (good.recorded reader committed).imp rivals
          (good.writtenAt_commit inv finished room same)

/-! ## Allowed steps -/

theorem World.Good.advance (good : world.Good calls) (inv : world.Inv zone calls)
    (below : ∀ session, (calls session).date < zone.maxDate)
    (allowed : world.Allows zone calls event)
    (success : world.advance zone currency calls event = some after) : after.Good calls := by
  cases event with
  | select session found =>
      obtain ⟨idle, takes, rfl⟩ := advance_select success
      have notWriting : ¬ (world.phase session).Writing := by
        rw [idle]
        exact id
      refine good.step _ _ (by simp [idle]) (by simp) rfl (fun _ _ => Or.inl rfl) ?_
        fun writing => writing.elim
      intro overwrites
      cases found with
      | none => exact absurd overwrites (Update.not_overwrites_none _)
      | some row =>
          obtain ⟨holds, slot, member, seen⟩ := takes
          rw [Slot.visible_of_none (inv.own_eq_none notWriting member)] at seen
          obtain ⟨samePair, covers⟩ := ((calls session).matches_iff row).mp holds
          exact ⟨row.period, mem_world_timeline.mpr ⟨slot, member, row, seen, samePair, rfl⟩,
            Option.some.inj overwrites, covers.proper⟩
  | startUpdate session =>
      obtain ⟨found, selected, rfl⟩ := advance_startUpdate success
      exact good.step _ _ (by simp [selected]) (by simp) rfl (fun _ _ => Or.inl rfl)
        (fun overwrites => good.anchored session (selected ▸ overwrites))
        fun _ _ => Or.inr (takesAll_start world session _)
  | updateRow session index =>
      obtain ⟨found, targets, slot, member, updating, located, unlocked, outcome⟩ :=
        advance_updateRow success
      have anchored : (calls session).Overwrites found →
          StartsAt (calls session).date (world.timeline (calls session).pair) :=
        fun overwrites => good.anchored session (updating ▸ overwrites)
      have covered := good.covered session
      rw [updating] at covered
      rcases outcome with ⟨row, _, _, _, rfl⟩ | ⟨unmatched, rfl⟩
      · refine good.step _ _ (by simp [updating]) (by simp) (committedRows_write _ located) ?_
          anchored fun _ overwrites => (covered trivial overwrites).imp_right fun takes => ?_
        · intro other differs
          exact Or.inl (map_set_of_eq located (Slot.untouched_write_of_ne unlocked differs.symm _))
        · rw [List.map_set, Slot.untouched_write_self]
          refine takes.take ?_
          rw [List.length_map]
          exact (List.getElem?_eq_some_iff.mp located).1
      · refine good.step _ _ (by simp [updating]) (by simp) rfl (fun _ _ => Or.inl rfl) anchored
          fun _ overwrites => (covered trivial overwrites).imp_right fun takes => takes.skip ?_
        intro old oldLocated
        obtain ⟨other, otherLocated, unwritten, isOld⟩ := untouched_located oldLocated
        obtain rfl : slot = other := Option.some.inj (located.symm.trans otherLocated)
        exact unmatched old (by rw [Slot.visible_of_none unwritten, isOld])
  | finishUpdate session =>
      obtain ⟨found, updating, rfl⟩ := advance_finishUpdate success
      have anchored : (calls session).Overwrites found →
          StartsAt (calls session).date (world.timeline (calls session).pair) :=
        fun overwrites => good.anchored session (updating ▸ overwrites)
      have covered := good.covered session
      rw [updating] at covered
      by_cases overwrites : (calls session).Overwrites found
      · rw [if_pos overwrites]
        exact good.step _ _ (by simp [updating]) (by simp) rfl (fun _ _ => Or.inl rfl) anchored
          fun _ => covered trivial
      · rw [if_neg overwrites]
        exact good.step _ _ (by simp [updating]) (by simp) rfl (fun _ _ => Or.inl rfl) anchored
          fun _ => covered trivial
  | insert session =>
      obtain ⟨found, inserting, _, _, rfl⟩ := advance_insert success
      have inserts : ¬ (calls session).Overwrites found :=
        (inv.of_phase inserting trivial).branch found rfl
      refine good.step _ _ (by simp [inserting]) (by simp) (committedRows_insert _) ?_
        (fun overwrites => absurd overwrites inserts) fun _ overwrites => absurd overwrites inserts
      intro other _
      refine Or.inr ?_
      rw [List.map_append, List.map_singleton, Slot.untouched_inserted]
  | commit session =>
      obtain ⟨found, finished, rfl⟩ := advance_commit success
      exact good.commit inv (below session) finished fun inserts => allowed (finished ▸ inserts)
  | abort session =>
      obtain ⟨isOpen, rfl⟩ := advance_abort success
      refine good.step _ _ ?_ (by simp) committedRows_abort ?_
        (fun overwrites => absurd overwrites (Update.not_overwrites_none _))
        fun writing => writing.elim
      · intro committed
        rw [committed] at isOpen
        exact isOpen trivial
      · intro other differs
        refine Or.inl ?_
        rw [List.map_map]
        exact List.map_congr_left fun slot _ => Slot.untouched_abort_of_ne differs.symm slot

end

section
variable {zone : TimeZone} {currency : CurrencyTable} {calls : Session → Update}
variable {table : RateTable} {start reached : World} {events : List Event}

end
end ApostolRates
