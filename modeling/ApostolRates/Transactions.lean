import ApostolRates.Model.ReadCommitted

/-!
# What an open transaction has written

Whatever the other sessions do, an open transaction has written edits of rows that
matched and the row it inserts, and the keys stay unique however the open
transactions end.  A commit therefore does to the committed rows what the branch of
`update_rate` does to them with the row that the `SELECT INTO` took, however long
ago, as long as the `UPDATE` has taken every row that matches by now.
-/

set_option autoImplicit false

namespace ApostolRates

open ThreeValued ValidTime Versions

theorem Update.matches_iff (update : Update) (row : RateRow) :
    update.Matches row ↔ row.pair = update.pair ∧ row.period.Covers update.date :=
  row.inForce_iff _ _ _

section
variable (update : Update) (found : Option RateRow) (row : RateRow)

theorem Update.edit_pair : (update.edit found row).pair = row.pair := by
  unfold Update.edit
  split
  · exact update.setValue_pair row
  · exact update.setEnd_pair row

theorem Update.edit_validFromDate : (update.edit found row).validFromDate = row.validFromDate := by
  unfold Update.edit Update.setValue Update.setEnd
  split <;> split <;> rfl

theorem Update.edit_validToDate :
    (update.edit found row).validToDate = row.validToDate ∨
      (update.edit found row).validToDate = update.date := by
  unfold Update.edit Update.setValue Update.setEnd
  split <;> split
  · exact .inl rfl
  · exact .inl rfl
  · exact .inr rfl
  · exact .inl rfl

theorem Update.edit_of_not (unmatched : ¬ update.Matches row) : update.edit found row = row := by
  unfold Update.edit
  split
  · exact if_neg unmatched
  · exact if_neg unmatched

end

def Phase.added (zone : TimeZone) (update : Update) : Phase → List RateRow
  | .finished found => if update.Overwrites found then [] else [update.newRow zone found]
  | _ => []

theorem Phase.added_finished (zone : TimeZone) (update : Update) (found : Option RateRow) :
    (Phase.finished found).added zone update =
      if update.Overwrites found then [] else [update.newRow zone found] := rfl

/-! ## The work of a writing transaction -/

/-- The work of a transaction consists of edits of matching rows and of the row it
inserts, and the rows that are still to be taken have not been written. -/
structure Tracks (zone : TimeZone) (update : Update) (phase : Phase)
    (works : List (Option (Option RateRow × RateRow))) : Prop where
  edited : ∀ old row, some (some old, row) ∈ works →
    update.Matches old ∧ row = update.edit phase.found old
  distinct : phase.targets.Nodup
  untaken : ∀ index ∈ phase.targets, ∀ work, works[index]? ≠ some (some work)
  added : insertedRows works = phase.added zone update
  branch : ∀ found, phase = .inserting found → ¬ update.Overwrites found

section
variable {zone : TimeZone} {update : Update} {phase : Phase} {found : Option RateRow}
variable {works : List (Option (Option RateRow × RateRow))} {targets : List Nat} {index : Nat}

theorem mem_append_none {work : Option RateRow × RateRow} :
    some work ∈ works ++ [none] ↔ some work ∈ works := by
  simp

theorem getElem?_append_none {A : Type*} {items : List (Option A)} {item : A}
    (located : (items ++ [none])[index]? = some (some item)) :
    items[index]? = some (some item) := by
  rcases lt_or_ge index items.length with inside | outside
  · rwa [List.getElem?_append_left inside] at located
  · rw [List.getElem?_append_right outside] at located
    have member := List.mem_of_getElem? located
    simp at member

theorem Tracks.append_none (tracks : Tracks zone update phase works) :
    Tracks zone update phase (works ++ [none]) where
  edited old row member := tracks.edited old row (mem_append_none.mp member)
  distinct := tracks.distinct
  untaken index member work located :=
    tracks.untaken index member work (getElem?_append_none located)
  added := by
    rw [insertedRows_append, tracks.added]
    exact List.append_nil _
  branch := tracks.branch

theorem tracks_start (clean : ∀ work ∈ works, work = none) (distinct : targets.Nodup) :
    Tracks zone update (.updating found targets) works where
  edited old row member := nomatch clean _ member
  distinct := distinct
  untaken index _ work located := nomatch clean _ (List.mem_of_getElem? located)
  added := by
    refine List.filterMap_eq_nil_iff.mpr fun work member => ?_
    rw [clean work member]
    rfl
  branch _ phase := nomatch phase

theorem Tracks.located_none (tracks : Tracks zone update phase works)
    (member : index ∈ phase.targets) {work : Option (Option RateRow × RateRow)}
    (located : works[index]? = some work) : work = none := by
  cases work with
  | none => rfl
  | some work => exact absurd located (tracks.untaken index member work)

theorem Tracks.take (tracks : Tracks zone update (.updating found targets) works)
    (located : works[index]? = some none) {row : RateRow} (holds : update.Matches row) :
    Tracks zone update (.updating found (targets.erase index))
      (works.set index (some (some row, update.edit found row))) where
  edited old changed changedMember := by
    rcases List.mem_or_eq_of_mem_set changedMember with before | same
    · exact tracks.edited old changed before
    · cases same
      exact ⟨holds, rfl⟩
  distinct := tracks.distinct.erase index
  untaken other otherMember work otherLocated := by
    obtain ⟨differs, otherTarget⟩ := tracks.distinct.mem_erase_iff.mp otherMember
    rw [List.getElem?_set_ne differs.symm] at otherLocated
    exact tracks.untaken other otherTarget work otherLocated
  added := (insertedRows_set located _ _).trans tracks.added
  branch _ phase := nomatch phase

theorem Tracks.skip (tracks : Tracks zone update (.updating found targets) works) :
    Tracks zone update (.updating found (targets.erase index)) works where
  edited := tracks.edited
  distinct := tracks.distinct.erase index
  untaken other otherMember := tracks.untaken other (List.mem_of_mem_erase otherMember)
  added := tracks.added
  branch _ phase := nomatch phase

theorem Tracks.finish (tracks : Tracks zone update (.updating found []) works) :
    Tracks zone update
      (if update.Overwrites found then .finished found else .inserting found) works := by
  by_cases overwrites : update.Overwrites found
  · rw [if_pos overwrites]
    refine ⟨tracks.edited, tracks.distinct, tracks.untaken, ?_, fun _ phase => nomatch phase⟩
    rw [Phase.added_finished, if_pos overwrites]
    exact tracks.added
  · rw [if_neg overwrites]
    refine ⟨tracks.edited, tracks.distinct, tracks.untaken, tracks.added, ?_⟩
    intro other same
    cases same
    exact overwrites

theorem Tracks.insert (tracks : Tracks zone update (.inserting found) works) :
    Tracks zone update (.finished found) (works ++ [some (none, update.newRow zone found)]) where
  edited old row member := by
    rcases List.mem_append.mp member with before | added
    · exact tracks.edited old row before
    · simp at added
  distinct := tracks.distinct
  untaken _ member := nomatch member
  added := by
    rw [insertedRows_append, tracks.added, Phase.added_finished, if_neg (tracks.branch found rfl)]
    rfl
  branch _ phase := nomatch phase

/-! ### What the work is when it is committed -/

theorem Update.rows_eq (zone : TimeZone) (update : Update) (found : Option RateRow)
    (rows : Multiset RateRow) :
    rows.map (update.edit found) + ((Phase.finished found).added zone update : List RateRow) =
      update.rows zone found rows := by
  rw [Update.rows, Phase.added_finished]
  by_cases overwrites : update.Overwrites found
  · have edits : update.edit found = update.setValue := by
      funext row
      exact if_pos overwrites
    simp [overwrites, edits]
  · have edits : update.edit found = update.setEnd := by
      funext row
      exact if_neg overwrites
    rw [if_neg overwrites, if_neg overwrites, edits, add_comm]
    rfl

variable {heap : Heap Session RateRow} {session : Session}

/-- A commit applies the branch of `update_rate` to the committed rows, if every row
that matches has been written. -/
theorem Tracks.commit_rows
    (tracks : Tracks zone update (.finished found) (heap.map (Slot.work session)))
    (taken : ∀ slot ∈ heap, ∀ old, slot.untouched session = some old → ¬ update.Matches old) :
    committedRows (heap.map (Slot.commit session)) =
      update.rows zone found (committedRows heap) := by
  have edited : ∀ slot ∈ heap, ∀ old, slot.committed = some old →
      (slot.commit session).committed = some (update.edit found old) := by
    intro slot member old before
    rw [Slot.committed_commit, before]
    cases written : slot.own session with
    | some row =>
        have done : some (some old, row) ∈ heap.map (Slot.work session) :=
          List.mem_map.mpr ⟨slot, member, by rw [Slot.work_of_own written, before]⟩
        rw [(tracks.edited old row done).2]
        rfl
    | none =>
        have unmatched : ¬ update.Matches old :=
          taken slot member old (Slot.untouched_eq_some.mpr ⟨written, before⟩)
        rw [update.edit_of_not found old unmatched]
        rfl
  rw [committedRows_commit (update.edit found) edited, tracks.added, update.rows_eq]

theorem Tracks.own_edited (tracks : Tracks zone update phase (heap.map (Slot.work session)))
    {slot : Slot Session RateRow} (member : slot ∈ heap) {old row : RateRow}
    (before : slot.committed = some old) (written : slot.own session = some row) :
    update.Matches old ∧ row = update.edit phase.found old := by
  refine tracks.edited old row (List.mem_map.mpr ⟨slot, member, ?_⟩)
  rw [Slot.work_of_own written, before]

theorem Tracks.own_added (tracks : Tracks zone update phase (heap.map (Slot.work session)))
    {slot : Slot Session RateRow} (member : slot ∈ heap) {row : RateRow}
    (before : slot.committed = none) (written : slot.own session = some row) :
    row ∈ phase.added zone update := by
  rw [← tracks.added]
  refine List.mem_filterMap.mpr ⟨_, List.mem_map.mpr ⟨slot, member, rfl⟩, ?_⟩
  rw [Slot.work_of_own written, before]
  rfl

end

/-! ## The invariant of an interleaving -/

structure World.Inv (zone : TimeZone) (calls : Session → Update) (world : World) : Prop where
  tracks : ∀ session, (world.phase session).Writing →
    Tracks zone (calls session) (world.phase session) (world.heap.map (Slot.work session))
  clean : ∀ session, ¬ (world.phase session).Writing →
    ∀ work ∈ world.heap.map (Slot.work session), work = none
  keys : KeysUnique RateRow.key world.heap
  matched : ∀ session row, (world.phase session).found = some row → (calls session).Matches row

section
variable {zone : TimeZone} {currency : CurrencyTable} {calls : Session → Update}
variable {world after : World} {session : Session} {event : Event}

theorem World.Fresh.inv {rate : RateTable} (fresh : world.Fresh rate) : world.Inv zone calls where
  tracks session writing := by
    rw [fresh.idle session] at writing
    exact writing.elim
  clean session _ work member := by
    obtain ⟨slot, slotMember, rfl⟩ := List.mem_map.mp member
    rw [Slot.work_eq_none, Slot.own, fresh.quiet slot slotMember]
    rfl
  keys := keysUnique_of_quiet fresh.quiet (fresh.rows ▸ rate.keyUnique)
  matched session row taken := by
    rw [fresh.idle session] at taken
    cases taken

theorem World.Inv.own_eq_none (inv : world.Inv zone calls)
    (notWriting : ¬ (world.phase session).Writing) {slot : Slot Session RateRow}
    (member : slot ∈ world.heap) : slot.own session = none :=
  Slot.work_eq_none.mp (inv.clean session notWriting _ (List.mem_map_of_mem member))

/-- A step of a session keeps the invariant when the others see nothing of it but
added slots, and the session itself is left in order. -/
theorem World.Inv.step (inv : world.Inv zone calls) (phase : Phase) (heap : Heap Session RateRow)
    (others : ∀ other, other ≠ session →
      heap.map (Slot.work other) = world.heap.map (Slot.work other) ∨
        heap.map (Slot.work other) = world.heap.map (Slot.work other) ++ [none])
    (keys : KeysUnique RateRow.key heap)
    (matched : ∀ row, phase.found = some row → (calls session).Matches row)
    (tracks : phase.Writing →
      Tracks zone (calls session) phase (heap.map (Slot.work session)))
    (clean : ¬ phase.Writing → ∀ work ∈ heap.map (Slot.work session), work = none) :
    World.Inv zone calls
      { heap := heap, phase := Function.update world.phase session phase } where
  tracks writer writing := by
    by_cases isSession : writer = session
    · subst isSession
      simp only [Function.update_self] at writing ⊢
      exact tracks writing
    · simp only [Function.update_of_ne isSession] at writing ⊢
      rcases others writer isSession with same | grown
      · rw [same]
        exact inv.tracks writer writing
      · rw [grown]
        exact (inv.tracks writer writing).append_none
  clean reader notWriting := by
    by_cases isSession : reader = session
    · subst isSession
      simp only [Function.update_self] at notWriting
      exact clean notWriting
    · simp only [Function.update_of_ne isSession] at notWriting
      intro work member
      rcases others reader isSession with same | grown
      · rw [same] at member
        exact inv.clean reader notWriting work member
      · rw [grown] at member
        rcases List.mem_append.mp member with before | added
        · exact inv.clean reader notWriting work before
        · exact List.mem_singleton.mp added
  keys := keys
  matched reader row taken := by
    by_cases isSession : reader = session
    · subst isSession
      simp only [Function.update_self] at taken
      exact matched row taken
    · simp only [Function.update_of_ne isSession] at taken
      exact inv.matched reader row taken

theorem World.Inv.enter (inv : world.Inv zone calls) (phase : Phase)
    (matched : ∀ row, phase.found = some row → (calls session).Matches row)
    (tracks : phase.Writing →
      Tracks zone (calls session) phase (world.heap.map (Slot.work session)))
    (clean : ¬ phase.Writing → ∀ work ∈ world.heap.map (Slot.work session), work = none) :
    (world.enter session phase).Inv zone calls :=
  inv.step phase world.heap (fun _ _ => Or.inl rfl) inv.keys matched tracks clean

theorem World.Inv.of_phase (inv : world.Inv zone calls) {phase : Phase}
    (current : world.phase session = phase) (writing : phase.Writing) :
    Tracks zone (calls session) phase (world.heap.map (Slot.work session)) := by
  have tracks := inv.tracks session (current ▸ writing)
  rwa [current] at tracks

theorem World.Inv.matched_of_phase (inv : world.Inv zone calls) {phase : Phase}
    (current : world.phase session = phase) {row : RateRow} (taken : phase.found = some row) :
    (calls session).Matches row :=
  inv.matched session row (current ▸ taken)

theorem World.Inv.advance (inv : world.Inv zone calls)
    (success : world.advance zone currency calls event = some after) : after.Inv zone calls := by
  cases event with
  | select session found =>
      obtain ⟨idle, allowed, rfl⟩ := advance_select success
      have notWriting : ¬ (world.phase session).Writing := by
        rw [idle]
        exact id
      refine inv.enter _ ?_ (fun writing => writing.elim) fun _ => inv.clean session notWriting
      intro row taken
      cases taken
      exact allowed.1
  | startUpdate session =>
      obtain ⟨found, selected, rfl⟩ := advance_startUpdate success
      have notWriting : ¬ (world.phase session).Writing := by
        rw [selected]
        exact id
      exact inv.enter _ (fun row taken => inv.matched_of_phase selected taken)
        (fun _ => tracks_start (inv.clean session notWriting) (List.nodup_range.filter _))
        fun ended => absurd trivial ended
  | updateRow session index =>
      obtain ⟨found, targets, slot, member, updating, located, unlocked, outcome⟩ :=
        advance_updateRow success
      have tracks := inv.of_phase updating trivial
      have worked : (world.heap.map (Slot.work session))[index]? = some (slot.work session) := by
        rw [List.getElem?_map, located, Option.map_some]
      have unwritten := Slot.work_eq_none.mp (tracks.located_none member worked)
      rw [Slot.work_eq_none.mpr unwritten] at worked
      rcases outcome with ⟨row, seen, holds, free, rfl⟩ | ⟨_, rfl⟩
      · have written : (slot.write session ((calls session).edit found row)).work session =
            some (some row, (calls session).edit found row) := by
          rw [Slot.work_of_own (Slot.own_write_self session _ slot), Slot.committed_write,
            ← Slot.visible_of_none unwritten, seen]
        refine inv.step _ _ ?_ (inv.keys.write located unlocked free)
          (fun row taken => inv.matched_of_phase updating taken) ?_
          fun ended => absurd trivial ended
        · intro other differs
          exact Or.inl (map_set_of_eq located (Slot.work_write_of_ne unlocked differs.symm _))
        · intro _
          rw [List.map_set, written]
          exact tracks.take worked holds
      · exact inv.enter _ (fun row taken => inv.matched_of_phase updating taken)
          (fun _ => tracks.skip) fun ended => absurd trivial ended
  | finishUpdate session =>
      obtain ⟨found, updating, rfl⟩ := advance_finishUpdate success
      have tracks := inv.of_phase updating trivial
      refine inv.enter _ ?_ (fun _ => tracks.finish) ?_
      · intro row taken
        refine inv.matched_of_phase updating ?_
        split at taken <;> exact taken
      · intro ended
        split at ended <;> exact absurd trivial ended
  | insert session =>
      obtain ⟨found, inserting, _, free, rfl⟩ := advance_insert success
      have tracks := inv.of_phase inserting trivial
      have written : (Slot.inserted session ((calls session).newRow zone found)).work session =
          some (none, (calls session).newRow zone found) :=
        Slot.work_of_own (by simp [Slot.own, Slot.inserted])
      refine inv.step _ _ ?_ (inv.keys.insert free)
        (fun row taken => inv.matched_of_phase inserting taken) ?_
        fun ended => absurd trivial ended
      · intro other differs
        refine Or.inr ?_
        rw [List.map_append, List.map_singleton,
          Slot.work_eq_none.mpr (Slot.own_inserted_of_ne differs.symm _)]
      · intro _
        rw [List.map_append, List.map_singleton, written]
        exact tracks.insert
  | commit session =>
      obtain ⟨found, finished, rfl⟩ := advance_commit success
      exact inv.step _ _ (fun other differs => Or.inl (works_commit_of_ne differs.symm))
        inv.keys.commit (fun _ taken => by cases taken) (fun writing => writing.elim)
        fun _ => works_commit_self
  | abort session =>
      obtain ⟨_, rfl⟩ := advance_abort success
      exact inv.step _ _ (fun other differs => Or.inl (works_abort_of_ne differs.symm))
        inv.keys.abort (fun _ taken => by cases taken) (fun writing => writing.elim)
        fun _ => works_abort_self

end

end ApostolRates
