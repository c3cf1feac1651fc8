import ApostolRates.Isolation
import ApostolRates.Library.Marks
import Mathlib.Algebra.Order.Monoid.Unbundled.WithTop
import Mathlib.Data.Prod.Lex

/-!
# How far the sessions have come

Sessions that come to their pairs in one order, and to the rows of a pair in one order, have
passed every row that they have written.  Where each call would insert a
row of its own, what stays of a row however it is edited tells the rows apart.
-/

set_option autoImplicit false

namespace ApostolRates

open ThreeValued ValidTime Rollback Versions Traces

/-- What no call changes of a row that it does not insert. -/
def RateRow.origin (row : RateRow) : (Uuid × Uuid) × Timestamptz := (row.pair, row.validFromDate)

def Update.origin (update : Update) : (Uuid × Uuid) × Timestamptz := (update.pair, update.date)

/-- The calls come to their pairs in the order of the ranks, and each would insert a row
of its own. -/
structure Orderly {Rank : Type} [LinearOrder Rank] (rank : Uuid × Uuid → Rank)
    (rows : Multiset RateRow) (scripts : Session → List (Except PgError Update)) : Prop where
  ascending : ∀ session, ((scripts session).filterMap Except.toOption).Pairwise
    fun earlier later => rank earlier.pair < rank later.pair
  own : ∀ session other, session ≠ other → ∀ update update', .ok update ∈ scripts session →
    .ok update' ∈ scripts other → update.origin ≠ update'.origin
  isNew : ∀ session update, .ok update ∈ scripts session → ∀ row ∈ rows,
    row.origin ≠ update.origin
  distinct : (rows.map RateRow.origin).Nodup

/-! ## How far a session has come -/

def Phase.place : Phase → WithTop Nat
  | .idle | .selected _ => ⊥
  | .updating _ targets => (targets.head?).elim ⊤ fun index => (index : WithTop Nat)
  | .inserting _ | .finished _ | .committed | .aborted => ⊤

section
variable {Rank : Type} (rank : Uuid × Uuid → Rank)

/-- How far a session has come: the pair of its running call, and the place in the table. -/
def place (calls : List (Except PgError Update)) (phase : Phase) :
    WithTop (Rank ×ₗ WithTop Nat) :=
  match calls with
  | .ok update :: _ => ((toLex (rank update.pair, phase.place) : Rank ×ₗ WithTop Nat) :)
  | _ => ⊤

/-- The calls whose rows are not there yet. -/
def ahead (calls : List (Except PgError Update)) : Phase → List (Except PgError Update)
  | .finished _ => calls.tail
  | _ => calls

theorem mem_of_mem_ahead {calls : List (Except PgError Update)} {phase : Phase}
    {call : Except PgError Update} (member : call ∈ ahead calls phase) : call ∈ calls := by
  unfold ahead at member
  split at member
  · exact List.mem_of_mem_tail member
  · exact member

variable {rank} {update : Update} {rest : List (Except PgError Update)} {phase after : Phase}
variable {index : Nat} {found : Option RateRow} {targets : List Nat}

theorem place_updating :
    place rank (.ok update :: rest) (.updating found (index :: targets)) =
      ((toLex (rank update.pair, (index : WithTop Nat)) : Rank ×ₗ WithTop Nat) :) := rfl

theorem lt_place_of_targets (beyond : ∀ other ∈ targets, index < other) :
    (index : WithTop Nat) < (Phase.updating found targets).place := by
  cases targets with
  | nil => exact WithTop.coe_lt_top index
  | cons next later => exact WithTop.coe_lt_coe.mpr (beyond next List.mem_cons_self)

variable [LinearOrder Rank]

theorem lt_place_iff {other : Rank ×ₗ WithTop Nat} :
    (other : WithTop (Rank ×ₗ WithTop Nat)) < place rank (.ok update :: rest) phase ↔
      other < toLex (rank update.pair, phase.place) :=
  WithTop.coe_lt_coe

theorem place_mono (calls : List (Except PgError Update)) (later : phase.place ≤ after.place) :
    place rank calls phase ≤ place rank calls after := by
  match calls with
  | .ok update :: rest =>
      exact WithTop.coe_le_coe.mpr (Prod.Lex.toLex_le_toLex.mpr (.inr ⟨rfl, later⟩))
  | .error _ :: _ | [] => exact le_rfl

theorem place_next (further : ∀ later, .ok later ∈ rest → rank update.pair < rank later.pair) :
    place rank (.ok update :: rest) phase ≤ place rank rest after := by
  match rest with
  | .ok later :: others =>
      refine WithTop.coe_le_coe.mpr (Prod.Lex.toLex_le_toLex.mpr (.inl ?_))
      exact further later List.mem_cons_self
  | .error _ :: _ | [] => exact le_top

end

/-! ## What holds in every interleaving -/

section
variable {Rank : Type} [LinearOrder Rank] {rank : Uuid × Uuid → Rank}
variable {scripts : Session → List (Except PgError Update)} {rows : Multiset RateRow}
variable {zone : TimeZone} {currency : CurrencyTable} {sessions after : Sessions}
variable {session : Session} {phase : Phase} {heap : Heap Session RateRow}
variable {update : Update} {rest calls : List (Except PgError Update)} {found : Option RateRow}

theorem Orderly.later (orderly : Orderly rank rows scripts)
    (script : .ok update :: rest <:+ scripts session) :
    ∀ later, .ok later ∈ rest → rank update.pair < rank later.pair := by
  intro later member
  have part := (orderly.ascending session).sublist (script.sublist.filterMap Except.toOption)
  exact (List.pairwise_cons.mp part).1 later (List.mem_filterMap.mpr ⟨.ok later, member, rfl⟩)

variable (rank scripts) in
/-- Whoever has written a row is further on than the row. -/
structure Sessions.Ranked (sessions : Sessions) : Prop where
  scripts : ∀ session, sessions.calls session <:+ scripts session
  begun : ∀ session, ¬ (sessions.world.phase session).Ended →
    sessions.world.phase session ≠ .idle →
      ∃ update rest, sessions.calls session = .ok update :: rest
  ascending : ∀ session, (sessions.world.phase session).targets.Pairwise (· < ·)
  inside : ∀ session, ∀ index ∈ (sessions.world.phase session).targets,
    index < sessions.world.heap.length
  located : ∀ session update rest, sessions.calls session = .ok update :: rest →
    ∀ index ∈ (sessions.world.phase session).targets, ∀ origin,
      Stands RateRow.origin sessions.world.heap index origin → origin.1 = update.pair
  marked : Marked RateRow.origin sessions.world.heap
  isNew : ∀ session, ¬ (sessions.world.phase session).Ended → ∀ update,
    .ok update ∈ ahead (sessions.calls session) (sessions.world.phase session) →
      ∀ index, ¬ Stands RateRow.origin sessions.world.heap index update.origin
  passed : ∀ session index origin,
    Written RateRow.origin sessions.world.heap index session origin →
      ((toLex (rank origin.1, (index : WithTop Nat)) : Rank ×ₗ WithTop Nat) :) <
        place rank (sessions.calls session) (sessions.world.phase session)
  holding : ∀ session index origin,
    Written RateRow.origin sessions.world.heap index session origin →
      ¬ (sessions.world.phase session).Ended

theorem World.Fresh.ranked {world : World} {rate : RateTable} (fresh : world.Fresh rate)
    (orderly : Orderly rank rate.rows scripts) :
    Sessions.Ranked rank scripts ⟨world, scripts⟩ where
  scripts _ := List.suffix_rfl
  begun session _ begun := absurd (fresh.idle session) begun
  ascending session := by
    dsimp only
    rw [fresh.idle session]
    exact List.Pairwise.nil
  inside session index member := by
    dsimp only at member
    rw [fresh.idle session] at member
    exact absurd member List.not_mem_nil
  located session _ _ _ index member := by
    dsimp only at member
    rw [fresh.idle session] at member
    exact absurd member List.not_mem_nil
  marked := marked_of_quiet fresh.quiet (fresh.rows ▸ orderly.distinct)
  isNew session _ update member index := by
    dsimp only at member
    rw [fresh.idle session] at member
    rintro ⟨slot, located, row, isVersion, same⟩
    have slotMember := List.mem_of_getElem? located
    rcases Slot.mem_versions.mp isVersion with committed | ⟨owner, pending⟩
    · have isRow : row ∈ committedRows world.heap :=
        mem_committedRows.mpr ⟨slot, slotMember, committed⟩
      rw [fresh.rows] at isRow
      exact orderly.isNew session update member row isRow same
    · rw [fresh.quiet slot slotMember] at pending
      cases pending
  passed session index origin written := by
    obtain ⟨slot, row, located, pending, _⟩ := written
    rw [fresh.quiet slot (List.mem_of_getElem? located)] at pending
    cases pending
  holding session _ _ _ := by
    dsimp only
    rw [fresh.idle session]
    exact id

/-- A turn of one session after which it is in this phase with these calls left. -/
theorem Sessions.Ranked.step (ranked : sessions.Ranked rank scripts)
    (orderly : Orderly rank rows scripts)
    (script : calls <:+ sessions.calls session)
    (begun : ¬ phase.Ended → phase ≠ .idle → ∃ update rest, calls = .ok update :: rest)
    (ascending : phase.targets.Pairwise (· < ·))
    (inside : ∀ index ∈ phase.targets, index < heap.length)
    (located : ∀ update rest, calls = .ok update :: rest → ∀ index ∈ phase.targets, ∀ origin,
      Stands RateRow.origin heap index origin → origin.1 = update.pair)
    (further : place rank (sessions.calls session) (sessions.world.phase session) ≤
      place rank calls phase)
    (longer : sessions.world.heap.length ≤ heap.length)
    (marked : Marked RateRow.origin heap)
    (stands : ∀ index origin, Stands RateRow.origin heap index origin →
      Stands RateRow.origin sessions.world.heap index origin ∨
        index = sessions.world.heap.length ∧
          ∃ update, .ok update ∈ sessions.calls session ∧ origin = update.origin)
    (isNew : ¬ phase.Ended → ∀ update, .ok update ∈ ahead calls phase →
      ∀ index, ¬ Stands RateRow.origin heap index update.origin)
    (written : ∀ index other origin, Written RateRow.origin heap index other origin →
      Written RateRow.origin sessions.world.heap index other origin ∨
        other = session ∧
          ((toLex (rank origin.1, (index : WithTop Nat)) : Rank ×ₗ WithTop Nat) :) <
            place rank calls phase)
    (ending : phase.Ended → ∀ index origin, ¬ Written RateRow.origin heap index session origin) :
    Sessions.Ranked rank scripts
      { world := ⟨heap, Function.update sessions.world.phase session phase⟩
        calls := Function.update sessions.calls session calls } where
  scripts other := by
    by_cases same : other = session
    · subst same
      simpa using script.trans (ranked.scripts other)
    · simpa [same] using ranked.scripts other
  begun other := by
    by_cases same : other = session
    · subst same
      simpa using begun
    · simpa [same] using ranked.begun other
  ascending other := by
    by_cases same : other = session
    · subst same
      simpa using ascending
    · simpa [same] using ranked.ascending other
  inside other := by
    by_cases same : other = session
    · subst same
      simpa using inside
    · simpa [same] using fun index member => (ranked.inside other index member).trans_le longer
  located other := by
    by_cases same : other = session
    · subst same
      simpa using located
    · simp only [Function.update_of_ne same]
      intro update rest isCalls index member origin isThere
      rcases stands index origin isThere with before | ⟨atEnd, _⟩
      · exact ranked.located other update rest isCalls index member origin before
      · exact absurd (ranked.inside other index member) (by omega)
  marked := marked
  isNew other := by
    by_cases same : other = session
    · subst same
      simpa using isNew
    · simp only [Function.update_of_ne same]
      intro isOpen update member index isThere
      rcases stands index _ isThere with before | ⟨_, update', called, isOrigin⟩
      · exact ranked.isNew other isOpen update member index before
      · exact orderly.own other session same update update'
          ((ranked.scripts other).subset (mem_of_mem_ahead member))
          ((ranked.scripts session).subset called) isOrigin
  passed other index origin isWritten := by
    rcases written index other origin isWritten with before | ⟨rfl, beyond⟩
    · have passed := ranked.passed other index origin before
      by_cases same : other = session
      · subst same
        simpa using passed.trans_le further
      · simpa [same] using passed
    · simpa using beyond
  holding other index origin isWritten := by
    by_cases same : other = session
    · subst same
      simpa using fun ended => ending ended index origin isWritten
    · rcases written index other origin isWritten with before | ⟨isSession, _⟩
      · simpa [same] using ranked.holding other index origin before
      · exact absurd isSession same

theorem Sessions.Ranked.enter (ranked : sessions.Ranked rank scripts)
    (orderly : Orderly rank rows scripts)
    (script : calls <:+ sessions.calls session)
    (begun : ¬ phase.Ended → phase ≠ .idle → ∃ update rest, calls = .ok update :: rest)
    (ascending : phase.targets.Pairwise (· < ·))
    (located : ∀ update rest, calls = .ok update :: rest → ∀ index ∈ phase.targets,
      index < sessions.world.heap.length ∧ ∀ origin,
        Stands RateRow.origin sessions.world.heap index origin → origin.1 = update.pair)
    (further : place rank (sessions.calls session) (sessions.world.phase session) ≤
      place rank calls phase)
    (isOpen : ¬ (sessions.world.phase session).Ended) (goesOn : ¬ phase.Ended)
    (fewer : ∀ call ∈ ahead calls phase,
      call ∈ ahead (sessions.calls session) (sessions.world.phase session)) :
    Sessions.Ranked rank scripts
      { world := sessions.world.enter session phase
        calls := Function.update sessions.calls session calls } := by
  refine ranked.step orderly script begun ascending (fun index member => ?_)
    (fun update rest isCalls index member => (located update rest isCalls index member).2)
    further le_rfl ranked.marked (fun _ _ => .inl)
    (fun _ update member => ranked.isNew session isOpen update (fewer _ member))
    (fun _ _ _ => .inl) (fun ended => absurd ended goesOn)
  cases phase with
  | updating found targets =>
      obtain ⟨update, rest, isCalls⟩ := begun id (by simp)
      exact (located update rest isCalls index member).1
  | _ => exact absurd member List.not_mem_nil

theorem Update.edit_origin (row : RateRow) : (update.edit found row).origin = row.origin := by
  rw [RateRow.origin, RateRow.origin, update.edit_pair, update.edit_validFromDate]

theorem World.matching_ascending (world : World) (session : Session) (update : Update) :
    (world.matching session update).Pairwise (· < ·) :=
  List.pairwise_lt_range.filter _

theorem Sessions.Ranked.located_matching (ranked : sessions.Ranked rank scripts) {index : Nat}
    (member : index ∈ sessions.world.matching session update) :
    index < sessions.world.heap.length ∧ ∀ origin,
      Stands RateRow.origin sessions.world.heap index origin → origin.1 = update.pair := by
  obtain ⟨slot, row, isSlot, isSeen, holds⟩ := mem_matching.mp member
  refine ⟨(List.getElem?_eq_some_iff.mp isSlot).1, fun origin isThere => ?_⟩
  have own : Stands RateRow.origin sessions.world.heap index row.origin :=
    ⟨slot, isSlot, row, Slot.mem_versions_of_visible isSeen, rfl⟩
  rw [(ranked.marked index index _ _ isThere own).mpr rfl]
  exact ((update.matches_iff row).mp holds).1

theorem Sessions.Ranked.later_targets (ranked : sessions.Ranked rank scripts) {index : Nat}
    {targets : List Nat} (updating : sessions.world.phase session = .updating found targets)
    (first : targets.head? = some index) :
    ∃ later, targets = index :: later ∧ targets.erase index = later ∧
      (∀ other ∈ later, index < other) ∧ later.Pairwise (· < ·) := by
  cases targets with
  | nil => cases first
  | cons head later =>
      cases first
      have ascending := ranked.ascending session
      rw [updating] at ascending
      obtain ⟨beyond, pairwise⟩ := List.pairwise_cons.mp ascending
      exact ⟨later, rfl, List.erase_cons_head _ _, beyond, pairwise⟩

theorem Sessions.Ranked.enter_call (ranked : sessions.Ranked rank scripts)
    (orderly : Orderly rank rows scripts) (calls : sessions.calls session = .ok update :: rest)
    {current : Phase} (before : sessions.world.phase session = current)
    (isOpen : ¬ current.Ended) (unfinished : ∀ found, current ≠ .finished found)
    (goesOn : ¬ phase.Ended) (ascending : phase.targets.Pairwise (· < ·))
    (located : ∀ index ∈ phase.targets, index < sessions.world.heap.length ∧ ∀ origin,
      Stands RateRow.origin sessions.world.heap index origin → origin.1 = update.pair)
    (further : current.place ≤ phase.place) :
    Sessions.Ranked rank scripts { sessions with world := sessions.world.enter session phase } := by
  subst before
  have entered := ranked.enter orderly (List.suffix_refl (sessions.calls session))
    (fun _ _ => ⟨update, rest, calls⟩) ascending
    (fun update' rest' same index member => by
      rw [calls] at same
      cases same
      exact located index member)
    (place_mono _ further) isOpen goesOn
    (fun call member => by
      rw [ahead.eq_2 _ _ unfinished]
      exact mem_of_mem_ahead member)
  rwa [Function.update_eq_self] at entered

theorem Sessions.Ranked.write (ranked : sessions.Ranked rank scripts)
    (orderly : Orderly rank rows scripts) (calls : sessions.calls session = .ok update :: rest)
    {index : Nat} {later : List Nat} {slot : Slot Session RateRow} {row : RateRow}
    (updating : sessions.world.phase session = .updating found (index :: later))
    (isSlot : sessions.world.heap[index]? = some slot) (isSeen : slot.visible session = some row)
    (holds : update.Matches row) (beyond : ∀ other ∈ later, index < other)
    (ascending : later.Pairwise (· < ·)) :
    Sessions.Ranked rank scripts
      { sessions with
        world :=
          { heap := sessions.world.heap.set index (slot.write session (update.edit found row))
            phase := Function.update sessions.world.phase session (.updating found later) } } := by
  have same : (update.edit found row).origin = row.origin := update.edit_origin row
  have unmoved : ∀ place origin,
      Stands RateRow.origin
          (sessions.world.heap.set index (slot.write session (update.edit found row))) place
          origin →
        Stands RateRow.origin sessions.world.heap place origin := fun place origin =>
    stands_write isSlot (Slot.mem_versions_of_visible isSeen) same
  have later_of : ∀ other ∈ later, other ∈ (sessions.world.phase session).targets :=
    fun other member => by
      rw [updating]
      exact List.mem_cons_of_mem _ member
  have advanced : (index : WithTop Nat) < (Phase.updating found later).place :=
    lt_place_of_targets beyond
  have written := ranked.step orderly (List.suffix_refl (sessions.calls session))
    (fun _ _ => ⟨update, rest, calls⟩)
    (show (Phase.updating found later).targets.Pairwise (· < ·) from ascending)
    (fun other member => by
      rw [List.length_set]
      exact ranked.inside session other (later_of other member))
    (fun update' rest' isCalls other member origin isThere =>
      ranked.located session update' rest' isCalls other (later_of other member) origin
        (unmoved other origin isThere))
    (place_mono _ (by rw [updating]; exact advanced.le))
    (List.length_set).ge
    (ranked.marked.of_stands unmoved)
    (fun place origin isThere => .inl (unmoved place origin isThere))
    (fun isOpen update' member place isThere =>
      ranked.isNew session (by rw [updating]; exact id) update'
        (by rw [updating]; exact member) place (unmoved place _ isThere))
    (fun place other origin isWritten => by
      rcases written_write isSlot isWritten with before | ⟨rfl, rfl, rfl⟩
      · exact .inl before
      · refine .inr ⟨rfl, ?_⟩
        rw [calls]
        refine lt_place_iff.mpr (Prod.Lex.toLex_lt_toLex.mpr (.inr ⟨?_, advanced⟩))
        rw [same]
        exact congrArg rank ((update.matches_iff row).mp holds).1)
    (fun ended => absurd ended id)
  rwa [Function.update_eq_self] at written

theorem Sessions.Ranked.insert (ranked : sessions.Ranked rank scripts)
    (orderly : Orderly rank rows scripts) (calls : sessions.calls session = .ok update :: rest)
    (inserting : sessions.world.phase session = .inserting found) :
    Sessions.Ranked rank scripts
      { sessions with
        world :=
          { heap := sessions.world.heap ++ [Slot.inserted session (update.newRow zone found)]
            phase := Function.update sessions.world.phase session (.finished found) } } := by
  have isNew : ∀ index, ¬ Stands RateRow.origin sessions.world.heap index
      (update.newRow zone found).origin :=
    ranked.isNew session (by rw [inserting]; exact id) update
      (by rw [inserting, calls]; exact List.mem_cons_self)
  have further := orderly.later (calls ▸ ranked.scripts session)
  have inserted := ranked.step orderly (List.suffix_refl (sessions.calls session))
    (fun _ _ => ⟨update, rest, calls⟩)
    (show (Phase.finished found).targets.Pairwise (· < ·) from List.Pairwise.nil)
    (fun _ member => absurd member List.not_mem_nil)
    (fun _ _ _ _ member => absurd member List.not_mem_nil)
    (place_mono _ le_top)
    (by rw [List.length_append]; exact Nat.le_add_right _ _)
    (ranked.marked.insert isNew)
    (fun index origin isThere => by
      rcases stands_insert isThere with before | ⟨rfl, rfl⟩
      · exact .inl before
      · exact .inr ⟨rfl, update, by rw [calls]; exact List.mem_cons_self, rfl⟩)
    (fun isOpen other member index isThere => by
      rw [calls] at member
      rcases stands_insert isThere with before | ⟨_, isOrigin⟩
      · exact ranked.isNew session (by rw [inserting]; exact id) other
          (by rw [inserting, calls]; exact List.mem_cons_of_mem _ member) index before
      · exact absurd (congrArg Prod.fst isOrigin)
          (fun samePair => (further other member).ne (congrArg rank samePair.symm)))
    (fun index other origin isWritten => by
      rcases written_insert isWritten with before | ⟨rfl, rfl, rfl⟩
      · exact .inl before
      · refine .inr ⟨rfl, ?_⟩
        rw [calls]
        exact lt_place_iff.mpr (Prod.Lex.toLex_lt_toLex.mpr (.inr ⟨rfl, WithTop.coe_lt_top _⟩)))
    (fun ended => absurd ended id)
  rwa [Function.update_eq_self] at inserted

theorem Sessions.Ranked.call (ranked : sessions.Ranked rank scripts)
    (orderly : Orderly rank rows scripts) {event : Event} {world : World}
    (calls : sessions.calls event.session = .ok update :: rest)
    (first : sessions.TakesFirst (.call event)) (within : event.Within)
    (advanced : sessions.world.advance zone currency (fun _ => update) event = some world) :
    Sessions.Ranked rank scripts { sessions with world := world } := by
  cases event with
  | select session found =>
      obtain ⟨idle, _, rfl⟩ := World.advance_select advanced
      exact ranked.enter_call orderly calls idle id (by simp) id List.Pairwise.nil
        (fun _ member => absurd member List.not_mem_nil) le_rfl
  | startUpdate session =>
      obtain ⟨found, selected, rfl⟩ := World.advance_startUpdate advanced
      exact ranked.enter_call orderly calls selected id (by simp) id
        (sessions.world.matching_ascending session update)
        (fun index member => ranked.located_matching member) bot_le
  | updateRow session index =>
      obtain ⟨found, targets, slot, _, updating, isSlot, unlocked, outcome⟩ :=
        World.advance_updateRow advanced
      have first : (sessions.world.phase session).targets.head? = some index := first
      rw [updating] at first
      obtain ⟨later, rfl, erased, beyond, ascending⟩ := ranked.later_targets updating first
      rw [erased] at outcome
      have located := fun other (member : other ∈ later) =>
        ranked.located session update rest calls other
          (by rw [updating]; exact List.mem_cons_of_mem _ member)
      have inside := fun other (member : other ∈ later) =>
        ranked.inside session other (by rw [updating]; exact List.mem_cons_of_mem _ member)
      have further : (Phase.updating found (index :: later)).place ≤
          (Phase.updating found later).place := (lt_place_of_targets beyond).le
      rcases outcome with ⟨row, isSeen, holds, _, rfl⟩ | ⟨_, rfl⟩
      · exact ranked.write orderly calls updating isSlot isSeen holds beyond ascending
      · exact ranked.enter_call orderly calls updating id (by simp) id ascending
          (fun other member => ⟨inside other member, located other member⟩) further
  | finishUpdate session =>
      obtain ⟨found, updating, rfl⟩ := World.advance_finishUpdate advanced
      refine ranked.enter_call orderly calls updating id (by simp) ?_ ?_ ?_ ?_
      · split <;> exact id
      · split <;> exact List.Pairwise.nil
      · split <;> exact fun _ member => absurd member List.not_mem_nil
      · split <;> exact le_rfl
  | insert session =>
      obtain ⟨found, inserting, _, _, rfl⟩ := World.advance_insert advanced
      exact ranked.insert orderly calls inserting
  | commit session => exact absurd within id
  | abort session => exact absurd within id

theorem Sessions.Ranked.finish (ranked : sessions.Ranked rank scripts)
    (orderly : Orderly rank rows scripts) (ended : phase.Ended)
    {change : Slot Session RateRow → Slot Session RateRow}
    (versions : ∀ slot, ∀ row ∈ (change slot).versions, row ∈ slot.versions)
    (pending : ∀ slot, ∀ version ∈ (change slot).pending, version ∈ slot.pending)
    (released : ∀ slot, (change slot).own session = none) :
    Sessions.Ranked rank scripts
      { sessions with
        world :=
          { heap := sessions.world.heap.map change
            phase := Function.update sessions.world.phase session phase } } := by
  have unmoved : ∀ place origin,
      Stands RateRow.origin (sessions.world.heap.map change) place origin →
        Stands RateRow.origin sessions.world.heap place origin := fun _ _ => stands_map versions
  have atEnd : phase.targets = [] ∧ phase.place = ⊤ := by
    cases phase with
    | committed | aborted => exact ⟨rfl, rfl⟩
    | _ => exact absurd ended id
  have done := ranked.step orderly (List.suffix_refl (sessions.calls session))
    (fun isOpen => absurd ended isOpen)
    (by rw [atEnd.1]; exact List.Pairwise.nil)
    (fun _ member => by rw [atEnd.1] at member; exact absurd member List.not_mem_nil)
    (fun _ _ _ _ member => by rw [atEnd.1] at member; exact absurd member List.not_mem_nil)
    (place_mono _ (by rw [atEnd.2]; exact le_top))
    (List.length_map change).ge
    (ranked.marked.of_stands unmoved)
    (fun place origin isThere => .inl (unmoved place origin isThere))
    (fun isOpen => absurd ended isOpen)
    (fun _ _ _ isWritten => .inl (written_map pending isWritten))
    (fun _ _ _ => not_written_of_own (List.forall_mem_map.mpr fun slot _ => released slot))
  rwa [Function.update_eq_self] at done

theorem Sessions.Ranked.advance (ranked : sessions.Ranked rank scripts)
    (orderly : Orderly rank rows scripts) {turn : Turn}
    (success : sessions.advanceInOrder zone currency turn = some after) :
    after.Ranked rank scripts := by
  obtain ⟨first, success⟩ := Sessions.advanceInOrder_eq_some.mp success
  cases turn with
  | call event =>
      obtain ⟨update, rest, world, calls, within, advanced, rfl⟩ := Sessions.advance_call success
      exact ranked.call orderly calls first within advanced
  | next session =>
      obtain ⟨call, rest, found, calls, finished, rfl⟩ := Sessions.advance_next success
      obtain ⟨update, others, isCalls⟩ := ranked.begun session (by rw [finished]; exact id)
        (by simp [finished])
      rw [calls] at isCalls
      cases isCalls
      refine ranked.enter orderly (calls ▸ List.suffix_cons _ _) (fun _ begun => absurd rfl begun)
        List.Pairwise.nil (fun _ _ _ _ member => absurd member List.not_mem_nil) ?_
        (by rw [finished]; exact id) id ?_
      · rw [calls]
        exact place_next (orderly.later (calls ▸ ranked.scripts session))
      · rw [calls, finished]
        exact fun _ member => member
  | commit session =>
      obtain ⟨_, _, rfl⟩ := Sessions.advance_commit success
      exact ranked.finish orderly (show Phase.committed.Ended from trivial)
        (fun _ _ => Slot.mem_versions_of_commit)
        (fun _ _ => Slot.mem_pending_of_commit) (Slot.own_commit_self session)
  | abort session =>
      obtain ⟨_, rfl⟩ := Sessions.advance_abort success
      exact ranked.finish orderly (show Phase.aborted.Ended from trivial)
        (fun _ _ => Slot.mem_versions_of_abort)
        (fun _ _ => Slot.mem_pending_of_abort) (Slot.own_abort_self session)

theorem Sessions.Ranked.run (orderly : Orderly rank rows scripts)
    (ranked : sessions.Ranked rank scripts) {turns : List Turn}
    (runs : sessions.runInOrder zone currency turns = some after) :
    after.Ranked rank scripts :=
  trace_invariant (fun reached => reached.Ranked rank scripts)
    (fun _ _ _ before possible => before.advance orderly possible) ranked runs

end

end ApostolRates
