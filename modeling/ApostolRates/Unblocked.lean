import ApostolRates.Serializable

/-!
# Nobody waits

A transaction that gives rates for pairs of its own never waits for another one: from
wherever it stands, and whatever the others have written and left open, it can take its
next step, and so it can finish by itself, if only it would succeed alone.
-/

set_option autoImplicit false

namespace ApostolRates

open ThreeValued ValidTime Rollback Versions Traces

/-- The calls of a transaction succeed when it runs alone, whatever rows are taken. -/
def SucceedsAlone (zone : TimeZone) (currency : CurrencyTable) (rate : RateTable)
    (script : List (Except PgError Update)) : Prop :=
  ∀ scan, ∃ updates : List Update, script = updates.map .ok ∧
    ∃ after, updates.foldlM (writeWith zone currency scan) rate = .ok after

/-! ## Keys that are free -/

section
variable {zone : TimeZone} {currency : CurrencyTable} {scan : Scan} {table after : RateTable}
variable {update : Update} {row other : RateRow}

theorem RateRow.pair_of_key (same : other.key = row.key) : other.pair = row.pair := by
  simp only [RateRow.key, Prod.mk.injEq] at same
  exact Prod.ext same.1 same.2.1

theorem edited_keys (success : writeWith zone currency scan table update = .ok after)
    (pair : Uuid × Uuid) :
    (((pairRows table.rows pair).map (update.edit (update.taken scan table))).map
      RateRow.key).Nodup := by
  have rows := ((update.apply_eq_ok_iff zone currency scan table).mp success).1
  rw [← update.rows_eq] at rows
  refine Multiset.nodup_of_le (Multiset.map_le_map ?_) after.keyUnique
  rw [← rows]
  exact (Multiset.map_le_map (Multiset.filter_le _ _)).trans (Multiset.le_add_right _ _)

theorem newRow_key (success : writeWith zone currency scan table update = .ok after)
    (inserts : ¬ update.Overwrites (update.taken scan table)) (pair : Uuid × Uuid) :
    ∀ row ∈ (pairRows table.rows pair).map (update.edit (update.taken scan table)),
      row.key ≠ (update.newRow zone (update.taken scan table)).key := by
  intro row member same
  have rows := ((update.apply_eq_ok_iff zone currency scan table).mp success).1
  rw [← update.rows_eq, Phase.added_finished, if_neg inserts, add_comm,
    Multiset.coe_singleton, Multiset.singleton_add] at rows
  have unique := after.keyUnique
  rw [← rows, Multiset.map_cons, Multiset.nodup_cons] at unique
  obtain ⟨old, oldMember, rfl⟩ := Multiset.mem_map.mp member
  refine unique.1 (Multiset.mem_map.mpr ⟨_, ?_, same⟩)
  exact Multiset.mem_map_of_mem _ (Multiset.mem_of_mem_filter oldMember)

theorem Update.edit_key_ne {found : Option RateRow} (holds : update.Matches row)
    (differs : (update.edit found other).key ≠ (update.edit found row).key) :
    other.key ≠ (update.edit found row).key := by
  -- the new key of a row that is taken is not the old key of a row that is still to be taken:
  -- the one ends at the date, the other one after it
  intro same
  by_cases matched : update.Matches other
  · by_cases overwrites : update.Overwrites found
    · have kept : (update.edit found other).key = other.key := by
        unfold Update.edit Update.setValue
        rw [if_pos overwrites]
        split <;> rfl
      exact differs (kept.trans same)
    · have ended : (update.edit found row).validToDate = update.date := by
        unfold Update.edit Update.setEnd
        rw [if_neg overwrites, if_pos (show Holds _ from holds)]
      have sameEnd : other.validToDate = (update.edit found row).validToDate := by
        simp only [RateRow.key, Prod.mk.injEq] at same
        exact same.2.2.2
      have late := ((update.matches_iff other).mp matched).2.2
      exact absurd (sameEnd.trans ended) (ne_of_gt late)
  · rw [update.edit_of_not found other matched] at differs
    exact differs same

end

section
variable {zone : TimeZone} {currency : CurrencyTable} {rate : RateTable}
variable {scripts : Session → List (Except PgError Update)} {session : Session}
variable {heap : Heap Session RateRow} {phase : Phase} {found : Option RateRow}
variable {update : Update} {rest : List (Except PgError Update)} {targets : List Nat}

theorem SucceedsAlone.running {scan : Scan} {done : List Update} {table : RateTable}
    {call : Except PgError Update} {script : List (Except PgError Update)}
    (alone : SucceedsAlone zone currency rate script)
    (split : done.map Except.ok ++ call :: rest = script)
    (loop : done.foldlM (writeWith zone currency scan) rate = .ok table) :
    ∃ update after, call = .ok update ∧
      writeWith zone currency scan table update = .ok after := by
  obtain ⟨updates, isScript, after, success⟩ := alone scan
  rw [isScript] at split
  obtain ⟨first, second, rfl, isDone, isLeft⟩ := List.map_eq_append_iff.mp split.symm
  have same : first = done := List.map_injective_iff.mpr (fun _ _ => Except.ok.inj) isDone
  subst same
  cases second with
  | nil => cases isLeft
  | cons update later =>
      cases isLeft
      rw [List.foldlM_append, loop] at success
      obtain ⟨middle, head, _⟩ := loop_cons_ok.mp success
      exact ⟨update, middle, rfl, head⟩

theorem respected_seen (territorial : Territorial RateRow.pair (Owns scripts) heap)
    (apart : Apart scripts) (owned : Owns scripts session update.pair)
    {slot : Slot Session RateRow} (member : slot ∈ heap) {row other : RateRow}
    (samePair : row.pair = update.pair) (respected : other ∈ slot.respected session)
    (sameKey : other.key = row.key) : slot.visible session = some other :=
  territorial.respected
    (fun next differs => apart.others session next differs.symm update.pair owned) member
    respected ((RateRow.pair_of_key sameKey).trans samePair)

theorem Follows.can_update {index : Nat} (apart : Apart scripts)
    (territorial : Territorial RateRow.pair (Owns scripts) heap)
    (alone : SucceedsAlone zone currency rate (scripts session))
    (follows : Follows zone currency rate scripts session heap (.updating found targets)
      (.ok update :: rest)) (member : index ∈ targets) :
    ∃ slot, heap[index]? = some slot ∧ slot.Unlocked session ∧
      ∀ row, slot.visible session = some row → update.Matches row →
        World.KeyFree session (update.edit found row) (heap.eraseIdx index) := by
  have owned := follows.owns
  obtain ⟨scan, done, table, script, loop, stage⟩ := follows
  cases stage with
  | updating update rest targets edited untaken located =>
      obtain ⟨running, after, same, success⟩ := alone.running script loop
      cases same
      obtain ⟨taken, isTaken⟩ := located index member
      obtain ⟨slot, isSlot, _, unlocked⟩ := territorial.unlocked
        (fun other differs => apart.others session other differs.symm _ owned) isTaken
      refine ⟨slot, isSlot, unlocked, fun row isSeen holds next nextMember other respected => ?_⟩
      have samePair := ((update.matches_iff row).mp holds).1
      have editPair := (update.edit_pair (update.taken scan table) row).trans samePair
      intro sameKey
      have isOther := respected_seen territorial apart owned (List.mem_of_mem_eraseIdx nextMember)
        editPair respected sameKey
      have otherPair := (RateRow.pair_of_key sameKey).trans editPair
      -- the other row is in another slot, so the edits of the two have different keys
      have keys := edited_keys success update.pair
      rw [← edited _ owned, rowsIn_seen_eraseIdx isSlot isSeen samePair, Multiset.map_cons,
        Multiset.map_cons, Multiset.nodup_cons] at keys
      refine update.edit_key_ne holds (fun same => keys.1 ?_) sameKey
      rw [← same]
      exact Multiset.mem_map_of_mem _ (Multiset.mem_map_of_mem _
        (mem_rowsIn_seen.mpr ⟨next, nextMember, isOther, otherPair⟩))

theorem Follows.can_insert (apart : Apart scripts)
    (territorial : Territorial RateRow.pair (Owns scripts) heap)
    (alone : SucceedsAlone zone currency rate (scripts session))
    (follows : Follows zone currency rate scripts session heap (.inserting found)
      (.ok update :: rest)) :
    update.Known currency ∧ World.KeyFree session (update.newRow zone found) heap := by
  have owned := follows.owns
  obtain ⟨scan, done, table, script, loop, stage⟩ := follows
  cases stage with
  | inserting update rest inserts rows =>
      obtain ⟨running, after, same, success⟩ := alone.running script loop
      cases same
      refine ⟨(((update.apply_eq_ok_iff zone currency scan table).mp success).2).resolve_left
        inserts, fun slot member other respected sameKey => ?_⟩
      have isOther := respected_seen territorial apart owned member rfl respected sameKey
      refine newRow_key success inserts update.pair other ?_ sameKey
      rw [← rows _ owned]
      exact mem_rowsIn_seen.mpr ⟨slot, member, isOther, RateRow.pair_of_key sameKey⟩

/-! ## Progress -/

def Phase.rank : Phase → Nat
  | .idle => 4
  | .selected _ => 3
  | .updating _ _ => 2
  | .inserting _ => 1
  | .finished _ | .committed | .aborted => 0

def Sessions.left (sessions : Sessions) (session : Session) : Nat × Nat × Nat :=
  ((sessions.calls session).length, (sessions.world.phase session).rank,
    (sessions.world.phase session).targets.length)

def Sessions.Less : Nat × Nat × Nat → Nat × Nat × Nat → Prop :=
  Prod.Lex (· < ·) (Prod.Lex (· < ·) (· < ·))

theorem Sessions.less_wellFounded : WellFounded Sessions.Less :=
  Nat.lt_wfRel.wf.prod_lex (Nat.lt_wfRel.wf.prod_lex Nat.lt_wfRel.wf)

theorem Follows.running {calls : List (Except PgError Update)}
    (follows : Follows zone currency rate scripts session heap phase calls)
    (begun : phase ≠ .idle) : ∃ update rest, calls = .ok update :: rest := by
  obtain ⟨_, _, _, _, _, stage⟩ := follows
  cases stage with
  | idle => exact absurd rfl begun
  | selected update rest | updating update rest | inserting update rest
  | finished update rest => exact ⟨update, rest, rfl⟩

variable {sessions : Sessions}

theorem Sessions.advance_of_call {event : Event} {world : World}
    (calls : sessions.calls event.session = .ok update :: rest) (within : event.Within)
    (advanced : sessions.world.advance zone currency (fun _ => update) event = some world) :
    sessions.advance zone currency (.call event) = some { sessions with world := world } := by
  simp [Sessions.advance, calls, within, advanced]

/-- The session has a turn that brings it nearer to its end. -/
def Sessions.CanGoOn (zone : TimeZone) (currency : CurrencyTable) (sessions : Sessions)
    (session : Session) : Prop :=
  ∃ turn after, turn.session = session ∧ sessions.TakesFirst turn ∧
    sessions.advance zone currency turn = some after ∧
    after.world.phase session ≠ .aborted ∧
    Sessions.Less (after.left session) (sessions.left session)

theorem Sessions.canGoOn_of_call (event : Event) (world : World) (after : Phase)
    (isSession : event.session = session) (first : sessions.TakesFirst (.call event))
    (within : event.Within) (calls : sessions.calls session = .ok update :: rest)
    (advanced : sessions.world.advance zone currency (fun _ => update) event = some world)
    (entered : world.phase session = after) (isOpen : after ≠ .aborted)
    (less : Prod.Lex (· < ·) (· < ·) (after.rank, after.targets.length)
      ((sessions.world.phase session).rank, (sessions.world.phase session).targets.length)) :
    sessions.CanGoOn zone currency session := by
  subst isSession
  refine ⟨.call event, _, rfl, first, Sessions.advance_of_call calls within advanced, ?_,
    .right _ ?_⟩
  · dsimp only
    rwa [entered]
  · dsimp only
    rwa [entered]

/-- Nothing is in the way of the session: its running call can be read, the row that it
comes to is not locked, and no index entry waits or is a duplicate. -/
structure Sessions.Unhindered (zone : TimeZone) (currency : CurrencyTable) (sessions : Sessions)
    (session : Session) : Prop where
  begun : sessions.world.phase session ≠ .idle →
    ∃ update rest, sessions.calls session = .ok update :: rest
  readable : ∀ call rest, sessions.calls session = call :: rest → ∃ update, call = .ok update
  takes : ∀ update rest found index later, sessions.calls session = .ok update :: rest →
    sessions.world.phase session = .updating found (index :: later) →
      ∃ slot, sessions.world.heap[index]? = some slot ∧ slot.Unlocked session ∧
        ∀ row, slot.visible session = some row → update.Matches row →
          World.KeyFree session (update.edit found row) (sessions.world.heap.eraseIdx index)
  inserts : ∀ update rest found, sessions.calls session = .ok update :: rest →
    sessions.world.phase session = .inserting found →
      update.Known currency ∧
        World.KeyFree session (update.newRow zone found) sessions.world.heap

theorem Sessions.Unhindered.canGoOn_idle (free : sessions.Unhindered zone currency session)
    (idle : sessions.world.phase session = .idle) : sessions.CanGoOn zone currency session := by
  cases calls : sessions.calls session with
  | nil =>
      refine ⟨.commit session, { sessions with world := sessions.world.commitOf session }, rfl,
        trivial, ?_, ?_, .right _ (.left _ _ ?_)⟩
      · simp [Sessions.advance, calls, idle]
      · simp [World.commitOf]
      · simp [World.commitOf, Phase.rank, idle]
  | cons call rest =>
      obtain ⟨update, rfl⟩ := free.readable call rest calls
      have takes : ∃ found, sessions.world.MayTake session update found := by
        by_cases matched : ∃ slot ∈ sessions.world.heap, ∃ row,
            slot.visible session = some row ∧ update.Matches row
        · obtain ⟨slot, member, row, isSeen, holds⟩ := matched
          exact ⟨some row, holds, slot, member, isSeen⟩
        · push Not at matched
          exact ⟨none, matched⟩
      obtain ⟨found, takes⟩ := takes
      refine Sessions.canGoOn_of_call (.select session found)
        (sessions.world.enter session (.selected found)) (.selected found) rfl trivial trivial
        calls ?_ (Function.update_self _ _ _) (by simp) (.left _ _ ?_)
      · simp [World.advance, idle, takes]
      · simp [Phase.rank, idle]

theorem Sessions.Unhindered.canGoOn_updating (free : sessions.Unhindered zone currency session)
    (updating : sessions.world.phase session = .updating found targets)
    (calls : sessions.calls session = .ok update :: rest) :
    sessions.CanGoOn zone currency session := by
  cases targets with
  | nil =>
      by_cases overwrites : update.Overwrites found
      · refine Sessions.canGoOn_of_call (.finishUpdate session)
          (sessions.world.enter session (.finished found)) (.finished found) rfl trivial trivial
          calls ?_ (Function.update_self _ _ _) (by simp) (.left _ _ ?_)
        · simp [World.advance, updating, overwrites]
        · simp [Phase.rank, updating]
      · refine Sessions.canGoOn_of_call (.finishUpdate session)
          (sessions.world.enter session (.inserting found)) (.inserting found) rfl trivial trivial
          calls ?_ (Function.update_self _ _ _) (by simp) (.left _ _ ?_)
        · simp [World.advance, updating, overwrites]
        · simp [Phase.rank, updating]
  | cons index later =>
      have first : sessions.TakesFirst (.call (.updateRow session index)) := by
        show (sessions.world.phase session).targets.head? = some index
        rw [updating]
        rfl
      have less : Prod.Lex (· < ·) (· < ·)
          ((Phase.updating found later).rank, (Phase.updating found later).targets.length)
          ((sessions.world.phase session).rank,
            (sessions.world.phase session).targets.length) := by
        rw [updating]
        exact .right _ (Nat.lt_succ_self _)
      obtain ⟨slot, isSlot, unlocked, keyFree⟩ := free.takes update rest found index later calls
        updating
      cases matched : (slot.visible session).filter fun row => update.Matches row with
      | none =>
          refine Sessions.canGoOn_of_call (.updateRow session index)
            (sessions.world.enter session (.updating found later)) _ rfl first trivial calls ?_
            (Function.update_self _ _ _) (by simp) less
          simp [World.advance, updating, isSlot, unlocked, matched]
      | some row =>
          obtain ⟨isSeen, holds⟩ := Option.filter_eq_some_iff.mp matched
          have isFree := keyFree row isSeen (of_decide_eq_true holds)
          refine Sessions.canGoOn_of_call (.updateRow session index)
            { heap := sessions.world.heap.set index
                (slot.write session (update.edit found row))
              phase := Function.update sessions.world.phase session
                (.updating found later) } _ rfl first trivial calls ?_
            (Function.update_self _ _ _) (by simp) less
          simp [World.advance, updating, isSlot, unlocked, matched, isFree]

theorem Sessions.Unhindered.canGoOn (free : sessions.Unhindered zone currency session)
    (isRunning : ¬ (sessions.world.phase session).Ended) :
    sessions.CanGoOn zone currency session := by
  cases current : sessions.world.phase session with
  | idle => exact free.canGoOn_idle current
  | selected found =>
      obtain ⟨update, rest, calls⟩ := free.begun (by simp [current])
      refine Sessions.canGoOn_of_call (.startUpdate session) (sessions.world.enter session _)
        (.updating found (sessions.world.matching session update)) rfl trivial trivial calls ?_
        (Function.update_self _ _ _) (by simp) (.left _ _ ?_)
      · simp [World.advance, current]
      · simp [Phase.rank, current]
  | updating found targets =>
      obtain ⟨update, rest, calls⟩ := free.begun (by simp [current])
      exact free.canGoOn_updating current calls
  | inserting found =>
      obtain ⟨update, rest, calls⟩ := free.begun (by simp [current])
      obtain ⟨known, keyFree⟩ := free.inserts update rest found calls current
      refine Sessions.canGoOn_of_call (.insert session)
        { heap := sessions.world.heap ++ [Slot.inserted session (update.newRow zone found)]
          phase := Function.update sessions.world.phase session (.finished found) }
        (.finished found) rfl trivial trivial calls ?_ (Function.update_self _ _ _) (by simp)
        (.left _ _ ?_)
      · simp [World.advance, current, known, keyFree]
      · simp [Phase.rank, current]
  | finished found =>
      obtain ⟨update, rest, calls⟩ := free.begun (by simp [current])
      refine ⟨.next session, _, rfl, trivial, by simp only [Sessions.advance, calls, current]; rfl,
        ?_, .left _ _ ?_⟩
      · simp [World.enter]
      · simp [calls]
  | committed => exact absurd (by rw [current]; trivial) isRunning
  | aborted => exact absurd (by rw [current]; trivial) isRunning

/-- In the way of a transaction that would succeed alone is nothing. -/
theorem Sessions.Inv.unhindered (inv : sessions.Inv zone currency rate scripts)
    (apart : Apart scripts) (alone : SucceedsAlone zone currency rate (scripts session))
    (isRunning : ¬ (sessions.world.phase session).Ended) :
    sessions.Unhindered zone currency session where
  begun := (inv.follows session isRunning).running
  readable call rest calls := by
    have follows := inv.follows session isRunning
    rw [calls] at follows
    obtain ⟨scan, done, table, script, loop, _⟩ := follows
    obtain ⟨update, _, isUpdate, _⟩ := alone.running script loop
    exact ⟨update, isUpdate⟩
  takes update rest found index later calls updating :=
    (inv.follows_of updating calls id).can_update apart inv.territorial alone List.mem_cons_self
  inserts update rest found calls inserting :=
    (inv.follows_of inserting calls id).can_insert apart inv.territorial alone

theorem Sessions.Inv.can_commit (inv : sessions.Inv zone currency rate scripts)
    (apart : Apart scripts) (alone : SucceedsAlone zone currency rate (scripts session))
    (isRunning : ¬ (sessions.world.phase session).Ended) :
    ∃ turns after, (∀ turn ∈ turns, turn.session = session) ∧
      sessions.run zone currency turns = some after ∧
      after.world.phase session = .committed := by
  obtain ⟨turns, after, mine, runs, _, done⟩ := trace_reaches
    Sessions.less_wellFounded (fun reached : Sessions => reached.left session)
    (fun reached => reached.Inv zone currency rate scripts ∧
      reached.world.phase session ≠ .aborted)
    (fun reached => reached.world.phase session = .committed)
    (fun turn : Turn => turn.session = session)
    (fun before invBefore notDone => by
      have isOpen : ¬ (before.world.phase session).Ended := by
        cases current : before.world.phase session with
        | committed => exact absurd current notDone
        | aborted => exact absurd current invBefore.2
        | _ => exact id
      obtain ⟨turn, after, isSession, _, possible, notAborted, less⟩ :=
        (invBefore.1.unhindered apart alone isOpen).canGoOn isOpen
      exact ⟨turn, after, isSession, possible, ⟨invBefore.1.advance apart possible, notAborted⟩,
        less⟩)
    ⟨inv, fun aborted => isRunning (by rw [aborted]; trivial)⟩
  exact ⟨turns, after, mine, runs, done⟩

end

/-- Transactions on the rates run side by side, and no pair is given by two of them.
Wherever they all stand, an open one that would succeed alone can go on to its commit
while the others do nothing: it meets no row that is locked and no key that another one
may take, so none waits for another and no two for each other. -/
theorem concurrent_transactions_never_wait (zone : TimeZone) (database : Database)
    (transactions : Session → Transaction)
    (beside : SideBySide zone database.currency transactions)
    (start : World) (fresh : start.Fresh database.rate) (turns : List Turn) (reached : Sessions)
    (runs : (Sessions.opened start database.currency transactions).run zone database.currency
      turns = some reached)
    (session : Session) (isOpen : ¬ (reached.world.phase session).Ended)
    (alone : ∀ scan, ∃ after, ((transactions session).withScan scan).give database.currency
      database.rate = .ok after) :
    ∃ more last, (∀ turn ∈ more, turn.session = session) ∧
      reached.run zone database.currency more = some last ∧
      last.world.phase session = .committed := by
  refine (beside.inv fresh runs).can_commit beside.areApart (fun scan => ?_) isOpen
  obtain ⟨after, given⟩ := alone scan
  obtain ⟨updates, asked, _⟩ := except_bind_eq_ok.mp given
  have calls := Transaction.updates_eq_ok.mp
    (show (transactions session).updates database.currency = .ok updates from asked)
  rw [Transaction.give_withScan (beside.sameZone session) calls] at given
  exact ⟨updates, calls, after, given⟩

/-- The other session has looked up and written, and neither has committed. -/
theorem delivery_can_commit :
    ∃ (reached last : Sessions) (more : List Turn),
      (Sessions.opened idleWorld Database.initial.currency sideBySide).run .utc
        Database.initial.currency (sideBySideTurns.take 7) = some reached ∧
      reached.world.phase 1 = .finished none ∧ (∀ turn ∈ more, turn.session = 0) ∧
      reached.run .utc Database.initial.currency more = some last ∧
      last.world.phase 0 = .committed := by
  have possible : (Sessions.run .utc .init ⟨idleWorld, sideBySideCalls⟩
      (sideBySideTurns.take 7)).isSome = true := by decide
  obtain ⟨reached, runs⟩ := Option.isSome_iff_exists.mp possible
  have phases : ∀ sessions ∈ Sessions.run .utc .init ⟨idleWorld, sideBySideCalls⟩
      (sideBySideTurns.take 7), sessions.world.phase 1 = .finished none ∧
        ¬ (sessions.world.phase 0).Ended := by decide
  obtain ⟨written, isOpen⟩ := phases reached runs
  have opened : (Sessions.opened idleWorld Database.initial.currency sideBySide).run .utc
      Database.initial.currency (sideBySideTurns.take 7) = some reached := by
    rw [Sessions.opened, sideBySide_calls]
    exact runs
  have alone : ∀ scan, ∃ after, ((sideBySide 0).withScan scan).give Database.initial.currency
      Database.initial.rate = .ok after := by
    intro scan
    have calls : (sideBySide 0).calls Database.initial.currency = [firstRate].map .ok :=
      congrFun sideBySide_calls 0
    rw [Transaction.give_withScan (sideBySide_apart.sameZone 0) calls]
    exact ⟨firstTable, loop_single (firstRate_apply scan)⟩
  obtain ⟨more, last, mine, goesOn, committed⟩ := concurrent_transactions_never_wait .utc .initial
    sideBySide sideBySide_apart idleWorld idleWorld_fresh (sideBySideTurns.take 7) reached opened 0
    isOpen alone
  exact ⟨reached, last, more, opened, written, mine, goesOn, committed⟩

end ApostolRates
