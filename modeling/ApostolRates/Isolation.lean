import ApostolRates.Independence
import ApostolRates.Library.Territories
import ApostolRates.Sessions

/-!
# Transactions that do not see each other

Where no pair is written twice, by one session or by two, every open session stands
where it would stand if it ran alone, whatever the order of the steps, and the
committed rows of its pairs are the first ones until it commits.
-/

set_option autoImplicit false

namespace ApostolRates

open ThreeValued ValidTime Rollback Versions Shards

/-! ## Looking up what was looked up -/

/-- The choice that takes the row wherever it can and is the given one elsewhere. -/
def Scan.favouring (scan : Scan) (row : RateRow) : Scan := fun rows found =>
  if member : row ∈ rows then ⟨row, member⟩ else scan rows found

theorem Scan.selectInto_favouring {scan : Scan} {row : RateRow} {rows : Multiset RateRow}
    (member : row ∈ rows) : (scan.favouring row).selectInto rows = some row := by
  have found : rows ≠ 0 := fun none => by simp [none] at member
  simp [Scan.selectInto, Scan.favouring, found, member]

theorem Scan.selectInto_favouring_of_notMem {scan : Scan} {row : RateRow}
    {rows : Multiset RateRow} (absent : row ∉ rows) :
    (scan.favouring row).selectInto rows = scan.selectInto rows := by
  simp [Scan.selectInto, Scan.favouring, absent]

def writeWith (zone : TimeZone) (currency : CurrencyTable) (scan : Scan) (rate : RateTable)
    (update : Update) : Except PgError RateTable :=
  update.apply zone currency scan rate

section
variable {zone : TimeZone} {currency : CurrencyTable} {scan : Scan} {row : RateRow}

theorem writeWith_favouring {update : Update} (differs : row.pair ≠ update.pair)
    (rate : RateTable) :
    writeWith zone currency (scan.favouring row) rate update =
      writeWith zone currency scan rate update := by
  have same : update.taken (scan.favouring row) rate = update.taken scan rate :=
    Scan.selectInto_favouring_of_notMem fun member =>
      differs (mem_selectRows.mp member).2.1
  rw [writeWith, writeWith, Update.apply_eq, Update.apply_eq, same]

theorem loop_favouring {updates : List Update}
    (differs : ∀ update ∈ updates, row.pair ≠ update.pair) (rate : RateTable) :
    updates.foldlM (writeWith zone currency (scan.favouring row)) rate =
      updates.foldlM (writeWith zone currency scan) rate := by
  induction updates generalizing rate with
  | nil => rfl
  | cons update rest ih =>
      rw [List.foldlM_cons, List.foldlM_cons,
        writeWith_favouring (differs update List.mem_cons_self)]
      exact congrArg _ (funext fun middle =>
        ih (fun other member => differs other (List.mem_cons_of_mem _ member)) middle)

theorem pairs_local (zone : TimeZone) (currency : CurrencyTable) (scan : Scan) :
    Local (fun pair (rate : RateTable) => rate.timeline pair)
      (fun update : Update => some update.pair) (writeWith zone currency scan) := by
  constructor
  · intro before update after other success differs
    exact (updateRate_ok success).2 other fun same => differs (congrArg some same.symm)
  · intro left right update pair after isOwn same success
    cases isOwn
    exact apply_local same success

end

/-! ## Edits -/

section
variable (update : Update) (found : Option RateRow)

/-- An `UPDATE` that meets its own version again leaves it as it is. -/
theorem Update.edit_edit (row : RateRow) :
    update.edit found (update.edit found row) = update.edit found row := by
  unfold Update.edit
  by_cases overwrites : update.Overwrites found
  · simp only [overwrites, if_true, Update.setValue]
    by_cases inForce : Holds (row.inForce (some update.currencyFrom) (some update.currencyTo)
        (some update.date))
    · simp only [inForce, if_true]
      split <;> rfl
    · simp only [inForce, if_false]
  · simp only [overwrites, if_false]
    by_cases inForce : Holds (row.inForce (some update.currencyFrom) (some update.currencyTo)
        (some update.date))
    · have ended : (update.setEnd row).validToDate = update.date := by
        rw [Update.setEnd, if_pos inForce]
      rw [Update.setEnd, if_neg]
      intro again
      have covers := ((RateRow.inForce_iff _ _ _ _).mp again).2
      exact absurd covers.2 (not_lt.mpr ended.le)
    · rw [Update.setEnd, Update.setEnd, if_neg inForce, if_neg inForce]

theorem Update.matches_of_edit_ne {row : RateRow} (differs : update.edit found row ≠ row) :
    update.Matches row := by
  by_contra unmatched
  exact differs (update.edit_of_not found row unmatched)

theorem pairRows_map_edit (rows : Multiset RateRow) (pair : Uuid × Uuid) :
    pairRows (rows.map (update.edit found)) pair =
      (pairRows rows pair).map (update.edit found) := by
  unfold pairRows
  rw [Multiset.filter_map]
  simp only [Function.comp_def, update.edit_pair]

theorem Update.pairRows_rows (zone : TimeZone) (rows : Multiset RateRow) (pair : Uuid × Uuid) :
    pairRows (update.rows zone found rows) pair =
      (pairRows rows pair).map (update.edit found) +
        (if ¬ update.Overwrites found ∧ update.pair = pair then {update.newRow zone found}
        else 0) := by
  rw [← update.rows_eq, ← pairRows_map_edit, Phase.added_finished]
  unfold pairRows
  rw [Multiset.filter_add]
  refine congrArg _ ?_
  have isPair : (update.newRow zone found).pair = update.pair := rfl
  by_cases overwrites : update.Overwrites found
  · simp [overwrites]
  · by_cases own : update.pair = pair <;> simp [overwrites, isPair, own, Multiset.filter_singleton]

end

/-! ## Where an open transaction stands -/

/-- How far an open transaction has come: what it sees of its own pairs, compared with
the table that its finished calls make when it runs alone. -/
inductive Stage (zone : TimeZone) (currency : CurrencyTable) (owned : Uuid × Uuid → Prop)
    (view : Uuid × Uuid → List (Option RateRow)) (scan : Scan) (table : RateTable) :
    Phase → List (Except PgError Update) → Prop where
  | idle (calls : List (Except PgError Update))
      (rows : ∀ pair, owned pair → rowsIn (view pair) = pairRows table.rows pair) :
      Stage zone currency owned view scan table .idle calls
  | selected (update : Update) (rest : List (Except PgError Update))
      (rows : ∀ pair, owned pair → rowsIn (view pair) = pairRows table.rows pair) :
      Stage zone currency owned view scan table (.selected (update.taken scan table))
        (.ok update :: rest)
  | updating (update : Update) (rest : List (Except PgError Update)) (targets : List Nat)
      (edited : ∀ pair, owned pair →
        (rowsIn (view pair)).map (update.edit (update.taken scan table)) =
          (pairRows table.rows pair).map (update.edit (update.taken scan table)))
      (untaken : ∀ pair, owned pair → ∀ index row, (view pair)[index]? = some (some row) →
        update.edit (update.taken scan table) row ≠ row → index ∈ targets)
      (located : ∀ index ∈ targets, ∃ row, (view update.pair)[index]? = some (some row)) :
      Stage zone currency owned view scan table (.updating (update.taken scan table) targets)
        (.ok update :: rest)
  | inserting (update : Update) (rest : List (Except PgError Update))
      (inserts : ¬ update.Overwrites (update.taken scan table))
      (rows : ∀ pair, owned pair → rowsIn (view pair) =
        (pairRows table.rows pair).map (update.edit (update.taken scan table))) :
      Stage zone currency owned view scan table (.inserting (update.taken scan table))
        (.ok update :: rest)
  | finished (update : Update) (rest : List (Except PgError Update))
      (rows : ∀ pair, owned pair → rowsIn (view pair) =
        pairRows (update.rows zone (update.taken scan table) table.rows) pair)
      (permitted : update.Overwrites (update.taken scan table) ∨ update.Known currency) :
      Stage zone currency owned view scan table (.finished (update.taken scan table))
        (.ok update :: rest)

def Owns (scripts : Session → List (Except PgError Update)) (session : Session)
    (pair : Uuid × Uuid) : Prop :=
  ∃ update, .ok update ∈ scripts session ∧ update.pair = pair

/-- No pair is written twice, by one session or by two. -/
structure Apart (scripts : Session → List (Except PgError Update)) : Prop where
  others : ∀ session other, session ≠ other → ∀ pair, Owns scripts session pair →
    ¬ Owns scripts other pair
  pairs : ∀ session, (((scripts session).filterMap Except.toOption).map Update.pair).Nodup

/-- An open session with these calls left stands where it would stand alone. -/
def Follows (zone : TimeZone) (currency : CurrencyTable) (rate : RateTable)
    (scripts : Session → List (Except PgError Update)) (session : Session)
    (heap : Heap Session RateRow) (phase : Phase) (calls : List (Except PgError Update)) : Prop :=
  ∃ (scan : Scan) (done : List Update) (table : RateTable),
    done.map Except.ok ++ calls = scripts session ∧
      done.foldlM (writeWith zone currency scan) rate = .ok table ∧
      Stage zone currency (Owns scripts session)
        (fun pair => seen RateRow.pair pair session heap) scan table phase calls

section
variable {zone : TimeZone} {currency : CurrencyTable} {rate : RateTable}
variable {scripts : Session → List (Except PgError Update)} {session : Session}
variable {heap after : Heap Session RateRow} {phase : Phase} {found : Option RateRow}
variable {update : Update} {rest calls : List (Except PgError Update)} {targets : List Nat}

theorem Follows.of_seen
    (follows : Follows zone currency rate scripts session heap phase calls)
    (same : ∀ pair, Owns scripts session pair →
      Grown (seen RateRow.pair pair session heap) (seen RateRow.pair pair session after)) :
    Follows zone currency rate scripts session after phase calls := by
  obtain ⟨scan, done, table, script, loop, stage⟩ := follows
  refine ⟨scan, done, table, script, loop, ?_⟩
  cases stage with
  | idle _ rows =>
      exact .idle _ fun pair owned => (same pair owned).rowsIn.trans (rows pair owned)
  | selected update rest rows =>
      exact .selected update rest fun pair owned => (same pair owned).rowsIn.trans (rows pair owned)
  | updating update rest targets edited untaken located =>
      have own : Owns scripts session update.pair := ⟨update, by simp [← script], rfl⟩
      refine .updating update rest targets (fun pair owned => ?_) (fun pair owned index row => ?_)
        fun index member => ?_
      · rw [(same pair owned).rowsIn]
        exact edited pair owned
      · rw [(same pair owned).getElem?]
        exact untaken pair owned index row
      · obtain ⟨row, isThere⟩ := located index member
        exact ⟨row, (same _ own).getElem?.mpr isThere⟩
  | inserting update rest inserts rows =>
      exact .inserting update rest inserts fun pair owned =>
        (same pair owned).rowsIn.trans (rows pair owned)
  | finished update rest rows permitted =>
      exact .finished update rest
        (fun pair owned => (same pair owned).rowsIn.trans (rows pair owned)) permitted

theorem Follows.owns
    (follows : Follows zone currency rate scripts session heap phase (.ok update :: rest)) :
    Owns scripts session update.pair := by
  obtain ⟨_, done, _, script, _⟩ := follows
  exact ⟨update, by simp [← script], rfl⟩

theorem Apart.done (apart : Apart scripts) {done : List Update}
    (script : done.map Except.ok ++ .ok update :: rest = scripts session) :
    ∀ earlier ∈ done, update.pair ≠ earlier.pair := by
  intro earlier member same
  have pairs := apart.pairs session
  rw [← script, List.filterMap_append, filterMap_toOption_ok, List.map_append,
    List.nodup_append] at pairs
  exact pairs.2.2 earlier.pair (List.mem_map_of_mem member) update.pair List.mem_cons_self
    same.symm

/-! ### The steps of its own calls -/

variable {world : World}

/-- A session that sees of its pair what the table has looks up what the table has. -/
theorem mem_selectRows_iff_seen {table : RateTable} {row : RateRow}
    (rows : rowsIn (seen RateRow.pair update.pair session heap) =
      pairRows table.rows update.pair) :
    row ∈ selectRows table.rows (some update.currencyFrom) (some update.currencyTo)
        (some update.date) ↔
      ∃ slot ∈ heap, slot.visible session = some row ∧ update.Matches row := by
  have member : row ∈ table.rows ∧ row.pair = update.pair ↔
      ∃ slot ∈ heap, slot.visible session = some row ∧ row.pair = update.pair := by
    rw [← mem_rowsIn_seen, rows, pairRows, Multiset.mem_filter]
  rw [mem_selectRows, ← and_assoc]
  constructor
  · rintro ⟨isRow, covers⟩
    obtain ⟨slot, slotMember, isSeen, samePair⟩ := member.mp isRow
    exact ⟨slot, slotMember, isSeen, (update.matches_iff row).mpr ⟨samePair, covers⟩⟩
  · rintro ⟨slot, slotMember, isSeen, holds⟩
    obtain ⟨samePair, covers⟩ := (update.matches_iff row).mp holds
    exact ⟨member.mpr ⟨slot, slotMember, isSeen, samePair⟩, covers⟩

theorem Follows.select (apart : Apart scripts)
    (follows : Follows zone currency rate scripts session world.heap .idle (.ok update :: rest))
    (takes : world.MayTake session update found) :
    Follows zone currency rate scripts session world.heap (.selected found)
      (.ok update :: rest) := by
  have own := follows.owns
  obtain ⟨scan, done, table, script, loop, stage⟩ := follows
  cases stage with
  | idle _ rows =>
      cases found with
      | none =>
          have taken : update.taken scan table = none := by
            refine Scan.selectInto_eq_none.mpr ?_
            refine Multiset.eq_zero_of_forall_notMem fun row member => ?_
            obtain ⟨slot, slotMember, isSeen, holds⟩ :=
              (mem_selectRows_iff_seen (rows _ own)).mp member
            exact takes slot slotMember row isSeen holds
          refine ⟨scan, done, table, script, loop, ?_⟩
          rw [← taken]
          exact .selected update rest rows
      | some row =>
          obtain ⟨holds, slot, slotMember, isSeen⟩ := takes
          have taken : update.taken (scan.favouring row) table = some row :=
            Scan.selectInto_favouring
              ((mem_selectRows_iff_seen (rows _ own)).mpr ⟨slot, slotMember, isSeen, holds⟩)
          have elsewhere : ∀ earlier ∈ done, row.pair ≠ earlier.pair := by
            rw [((update.matches_iff row).mp holds).1]
            exact apart.done script
          refine ⟨scan.favouring row, done, table, script, ?_, ?_⟩
          · rw [loop_favouring elsewhere, loop]
          · rw [← taken]
            exact .selected update rest rows

theorem mem_matching {index : Nat} :
    index ∈ world.matching session update ↔
      ∃ slot row, world.heap[index]? = some slot ∧ slot.visible session = some row ∧
        update.Matches row := by
  rw [World.matching, List.mem_filter, List.mem_range]
  constructor
  · rintro ⟨_, isMatch⟩
    cases located : world.heap[index]? with
    | none => simp [located] at isMatch
    | some slot =>
        cases isSeen : slot.visible session with
        | none => simp [located, isSeen] at isMatch
        | some row => exact ⟨slot, row, rfl, isSeen, by simpa [located, isSeen] using isMatch⟩
  · rintro ⟨slot, row, located, isSeen, holds⟩
    exact ⟨(List.getElem?_eq_some_iff.mp located).1, by simp [located, isSeen, holds]⟩

theorem Follows.startUpdate
    (follows : Follows zone currency rate scripts session world.heap (.selected found)
      (.ok update :: rest)) :
    Follows zone currency rate scripts session world.heap
      (.updating found (world.matching session update)) (.ok update :: rest) := by
  obtain ⟨scan, done, table, script, loop, stage⟩ := follows
  cases stage with
  | selected update rest rows =>
      refine ⟨scan, done, table, script, loop, .updating update rest _ ?_ ?_ ?_⟩
      · exact fun pair owned => congrArg _ (rows pair owned)
      · intro pair owned index row located differs
        obtain ⟨slot, isSlot, isSeen, _⟩ := seen_getElem?.mp located
        exact mem_matching.mpr ⟨slot, row, isSlot, isSeen, update.matches_of_edit_ne _ differs⟩
      · intro index member
        obtain ⟨slot, row, isSlot, isSeen, holds⟩ := mem_matching.mp member
        exact ⟨row, seen_getElem?.mpr ⟨slot, isSlot, isSeen, ((update.matches_iff row).mp holds).1⟩⟩

theorem Follows.write {index : Nat} {slot : Slot Session RateRow} {row : RateRow}
    (follows : Follows zone currency rate scripts session heap (.updating found targets)
      (.ok update :: rest))
    (isSlot : heap[index]? = some slot) (isSeen : slot.visible session = some row)
    (holds : update.Matches row) :
    Follows zone currency rate scripts session
      (heap.set index (slot.write session (update.edit found row)))
      (.updating found (targets.erase index)) (.ok update :: rest) := by
  obtain ⟨scan, done, table, script, loop, stage⟩ := follows
  cases stage with
  | updating update rest targets edited untaken located =>
      have samePair := ((update.matches_iff row).mp holds).1
      have editPair := update.edit_pair (update.taken scan table) row
      have isHere : (seen RateRow.pair update.pair session heap)[index]? = some (some row) :=
        seen_getElem?.mpr ⟨slot, isSlot, isSeen, samePair⟩
      have inside := (List.getElem?_eq_some_iff.mp isHere).1
      have own : seen RateRow.pair update.pair session
          (heap.set index (slot.write session (update.edit (update.taken scan table) row))) =
            (seen RateRow.pair update.pair session heap).set index
              (some (update.edit (update.taken scan table) row)) := by
        rw [seen_write_self, Option.filter_some, editPair, samePair]
        simp
      have others : ∀ pair, pair ≠ update.pair → seen RateRow.pair pair session
          (heap.set index (slot.write session (update.edit (update.taken scan table) row))) =
            seen RateRow.pair pair session heap := fun pair differs =>
        seen_write_elsewhere isSlot isSeen (samePair ▸ differs.symm) editPair
      refine ⟨scan, done, table, script, loop, .updating update rest _ ?_ ?_ ?_⟩
      · intro pair owned
        by_cases isPair : pair = update.pair
        · rw [isPair] at owned ⊢
          rw [own, rowsIn_set_map isHere (update.edit_edit _ row)]
          exact edited _ owned
        · rw [others pair isPair]
          exact edited pair owned
      · intro pair owned other otherRow isThere differs
        have notTaken : other ≠ index := by
          rintro rfl
          by_cases isPair : pair = update.pair
          · rw [isPair, own, List.getElem?_set_self inside] at isThere
            cases isThere
            exact differs (update.edit_edit _ row)
          · rw [others pair isPair] at isThere
            have otherPair := (seen_getElem?.mp isThere).choose_spec.2.2
            have matched := update.matches_of_edit_ne _ differs
            exact isPair (otherPair.symm.trans ((update.matches_iff otherRow).mp matched).1)
        refine (List.mem_erase_of_ne notTaken).mpr (untaken pair owned other otherRow ?_ differs)
        by_cases isPair : pair = update.pair
        · rw [isPair, own, List.getElem?_set_ne notTaken.symm] at isThere
          rw [isPair]
          exact isThere
        · rwa [others pair isPair] at isThere
      · intro other member
        rw [own]
        by_cases isTaken : other = index
        · rw [isTaken, List.getElem?_set_self inside]
          exact ⟨_, rfl⟩
        · rw [List.getElem?_set_ne (Ne.symm isTaken)]
          exact located other (List.mem_of_mem_erase member)

theorem Follows.skip {index : Nat} {slot : Slot Session RateRow}
    (follows : Follows zone currency rate scripts session heap (.updating found targets)
      (.ok update :: rest))
    (isSlot : heap[index]? = some slot)
    (unmatched : ∀ row, slot.visible session = some row → ¬ update.Matches row) :
    Follows zone currency rate scripts session heap (.updating found (targets.erase index))
      (.ok update :: rest) := by
  obtain ⟨scan, done, table, script, loop, stage⟩ := follows
  cases stage with
  | updating update rest targets edited untaken located =>
      refine ⟨scan, done, table, script, loop, .updating update rest _ edited ?_
        fun other member => located other (List.mem_of_mem_erase member)⟩
      intro pair owned other row isThere differs
      have notTaken : other ≠ index := by
        rintro rfl
        obtain ⟨otherSlot, isOther, isSeen, _⟩ := seen_getElem?.mp isThere
        rw [isSlot] at isOther
        cases isOther
        exact unmatched row isSeen (update.matches_of_edit_ne _ differs)
      exact (List.mem_erase_of_ne notTaken).mpr (untaken pair owned other row isThere differs)

theorem Follows.finishUpdate
    (follows : Follows zone currency rate scripts session heap (.updating found [])
      (.ok update :: rest)) :
    Follows zone currency rate scripts session heap
      (if update.Overwrites found then .finished found else .inserting found)
      (.ok update :: rest) := by
  obtain ⟨scan, done, table, script, loop, stage⟩ := follows
  cases stage with
  | updating update rest targets edited untaken located =>
      have whole : ∀ pair, Owns scripts session pair →
          rowsIn (seen RateRow.pair pair session heap) =
            (pairRows table.rows pair).map (update.edit (update.taken scan table)) := by
        intro pair owned
        rw [← edited pair owned]
        conv_lhs => rw [← Multiset.map_id (rowsIn _)]
        refine Multiset.map_congr rfl fun row member => ?_
        obtain ⟨index, isThere⟩ := List.mem_iff_getElem?.mp (mem_rowsIn.mp member)
        by_contra differs
        exact List.not_mem_nil (untaken pair owned index row isThere (Ne.symm differs))
      by_cases overwrites : update.Overwrites (update.taken scan table)
      · rw [if_pos overwrites]
        refine ⟨scan, done, table, script, loop, .finished update rest ?_ (Or.inl overwrites)⟩
        intro pair owned
        rw [whole pair owned, update.pairRows_rows, if_neg fun inserts => inserts.1 overwrites,
          add_zero]
      · rw [if_neg overwrites]
        exact ⟨scan, done, table, script, loop, .inserting update rest overwrites whole⟩

theorem Follows.insert
    (follows : Follows zone currency rate scripts session heap (.inserting found)
      (.ok update :: rest)) (known : update.Known currency) :
    Follows zone currency rate scripts session
      (heap ++ [Slot.inserted session (update.newRow zone found)]) (.finished found)
      (.ok update :: rest) := by
  obtain ⟨scan, done, table, script, loop, stage⟩ := follows
  cases stage with
  | inserting update rest inserts rows =>
      refine ⟨scan, done, table, script, loop, .finished update rest ?_ (Or.inr known)⟩
      intro pair owned
      have isPair : (update.newRow zone (update.taken scan table)).pair = update.pair := rfl
      rw [seen_insert_self, Option.filter_some, isPair, update.pairRows_rows, ← rows pair owned]
      by_cases own : update.pair = pair
      · simp only [own, inserts, decide_true, if_true, not_false_iff, and_self, rowsIn_append_some]
        rw [← Multiset.singleton_add, add_comm]
      · simp [own]

theorem Follows.next {call : Except PgError Update}
    (keys : KeysUnique RateRow.key heap)
    (follows : Follows zone currency rate scripts session heap (.finished found)
      (call :: rest)) :
    Follows zone currency rate scripts session heap .idle rest := by
  obtain ⟨scan, done, table, script, loop, stage⟩ := follows
  cases stage with
  | finished update rest rows permitted =>
      have own : Owns scripts session update.pair := ⟨update, by simp [← script], rfl⟩
      have distinct : Distinct (revise zone.maxDate update.date update.value
          ((update.taken scan table).map RateRow.period) (table.timeline update.pair)) := by
        have unique := keys.seen RateRow.pair update.pair session
        rw [rows _ own] at unique
        have apartRows := (key_nodup_iff _).mp unique update.pair
        have same : timelineOf (pairRows (update.rows zone (update.taken scan table) table.rows)
            update.pair) update.pair =
              timelineOf (update.rows zone (update.taken scan table) table.rows) update.pair := by
          rw [timelineOf, pairRows, pairRows, Multiset.filter_filter, timelineOf, pairRows]
          simp
        rw [same, update.timeline_rows] at apartRows
        exact apartRows
      obtain ⟨after, success⟩ := updateRate_succeeds_iff.mpr ⟨distinct, permitted⟩
      have afterRows := ((update.apply_eq_ok_iff zone currency scan table).mp success).1
      refine ⟨scan, done ++ [update], after, ?_, ?_, .idle rest fun pair owned => ?_⟩
      · rw [← script, List.map_append, List.append_assoc]
        rfl
      · rw [List.foldlM_append, loop]
        exact loop_single success
      · rw [rows pair owned, afterRows]

end

/-! ## The invariant of an interleaving -/

/-- Every open session stands where it would stand alone, the committed rows of a pair
are the first ones until its session commits, and then those of the session alone. -/
structure Sessions.Inv (zone : TimeZone) (currency : CurrencyTable) (rate : RateTable)
    (scripts : Session → List (Except PgError Update)) (sessions : Sessions) : Prop where
  territorial : Territorial RateRow.pair (Owns scripts) sessions.world.heap
  keys : KeysUnique RateRow.key sessions.world.heap
  follows : ∀ session, ¬ (sessions.world.phase session).Ended →
    Follows zone currency rate scripts session sessions.world.heap
      (sessions.world.phase session) (sessions.calls session)
  kept : ∀ pair,
    (∀ session, Owns scripts session pair → sessions.world.phase session ≠ .committed) →
      rowsIn (settled RateRow.pair pair sessions.world.heap) = pairRows rate.rows pair
  committed : ∀ session, sessions.world.phase session = .committed →
    ∃ (scan : Scan) (updates : List Update) (table : RateTable),
      scripts session = updates.map .ok ∧
        updates.foldlM (writeWith zone currency scan) rate = .ok table ∧
        ∀ pair, Owns scripts session pair →
          rowsIn (settled RateRow.pair pair sessions.world.heap) = pairRows table.rows pair

section
variable {zone : TimeZone} {currency : CurrencyTable} {rate : RateTable}
variable {scripts : Session → List (Except PgError Update)} {sessions after : Sessions}
variable {session : Session} {turn : Turn}

theorem World.Fresh.opened {world : World} (fresh : world.Fresh rate) :
    Sessions.Inv zone currency rate scripts ⟨world, scripts⟩ where
  territorial := territorial_of_quiet fresh.quiet
  keys := keysUnique_of_quiet fresh.quiet (fresh.rows ▸ rate.keyUnique)
  follows session _ := by
    refine ⟨.any, [], rate, rfl, rfl, ?_⟩
    rw [fresh.idle session]
    refine .idle _ fun pair _ => ?_
    have same : seen RateRow.pair pair session world.heap = settled RateRow.pair pair world.heap :=
      seen_eq_settled fun slot member row written => by
        rw [Slot.own, fresh.quiet slot member] at written
        cases written
    rw [same, rowsIn_settled, fresh.rows]
    rfl
  kept pair _ := by
    rw [rowsIn_settled, fresh.rows]
    rfl
  committed session committed := by
    rw [fresh.idle session] at committed
    cases committed

/-- A step other than a commit, of which the others see at most a slot that is added. -/
theorem Sessions.Inv.step (inv : sessions.Inv zone currency rate scripts) (phase : Phase)
    (heap : Heap Session RateRow) (calls : Session → List (Except PgError Update))
    (isOpen : sessions.world.phase session ≠ .committed) (staysOpen : phase ≠ .committed)
    (sameCalls : ∀ other, other ≠ session → calls other = sessions.calls other)
    (territorial : Territorial RateRow.pair (Owns scripts) heap)
    (keys : KeysUnique RateRow.key heap)
    (others : ∀ other, other ≠ session → ∀ pair,
      Grown (seen RateRow.pair pair other sessions.world.heap) (seen RateRow.pair pair other heap))
    (settles : ∀ pair,
      Grown (settled RateRow.pair pair sessions.world.heap) (settled RateRow.pair pair heap))
    (follows : ¬ phase.Ended →
      Follows zone currency rate scripts session heap phase (calls session)) :
    Sessions.Inv zone currency rate scripts
      { world := { heap := heap, phase := Function.update sessions.world.phase session phase }
        calls := calls } where
  territorial := territorial
  keys := keys
  follows reader isRunning := by
    by_cases isSession : reader = session
    · subst isSession
      simp only [Function.update_self] at isRunning ⊢
      exact follows isRunning
    · simp only [Function.update_of_ne isSession, sameCalls reader isSession] at isRunning ⊢
      exact (inv.follows reader isRunning).of_seen fun pair _ => others reader isSession pair
  kept pair uncommitted := by
    rw [(settles pair).rowsIn]
    refine inv.kept pair fun reader owned => ?_
    by_cases isSession : reader = session
    · rwa [isSession]
    · have before := uncommitted reader owned
      simp only [Function.update_of_ne isSession] at before
      exact before
  committed reader committed := by
    have differs : reader ≠ session := by
      rintro rfl
      simp only [Function.update_self] at committed
      exact staysOpen committed
    simp only [Function.update_of_ne differs] at committed
    obtain ⟨scan, updates, table, script, loop, rows⟩ := inv.committed reader committed
    exact ⟨scan, updates, table, script, loop, fun pair owned =>
      (settles pair).rowsIn.trans (rows pair owned)⟩

theorem Sessions.Inv.enter (inv : sessions.Inv zone currency rate scripts) (phase : Phase)
    (calls : Session → List (Except PgError Update))
    (isOpen : sessions.world.phase session ≠ .committed) (staysOpen : phase ≠ .committed)
    (sameCalls : ∀ other, other ≠ session → calls other = sessions.calls other)
    (follows : Follows zone currency rate scripts session sessions.world.heap phase
      (calls session)) :
    Sessions.Inv zone currency rate scripts
      { world := sessions.world.enter session phase, calls := calls } :=
  inv.step phase sessions.world.heap calls isOpen staysOpen sameCalls inv.territorial inv.keys
    (fun _ _ _ => Or.inl rfl) (fun _ => Or.inl rfl) fun _ => follows

theorem Sessions.Inv.commit (inv : sessions.Inv zone currency rate scripts) (apart : Apart scripts)
    (finished : sessions.calls session = []) (idle : sessions.world.phase session = .idle) :
    Sessions.Inv zone currency rate scripts
      { sessions with world := sessions.world.commitOf session } where
  territorial := inv.territorial.commit
  keys := inv.keys.commit
  follows reader isRunning := by
    have differs : reader ≠ session := by
      rintro rfl
      simp only [World.commitOf, Function.update_self] at isRunning
      exact isRunning trivial
    rw [commitOf_phase_of_ne differs] at isRunning ⊢
    refine (inv.follows reader isRunning).of_seen fun pair owned => Or.inl ?_
    exact inv.territorial.seen_commit_of_ne differs.symm
      (apart.others reader session differs pair owned)
  kept pair uncommitted := by
    have outside : ¬ Owns scripts session pair := fun owned =>
      uncommitted session owned (Function.update_self _ _ _)
    rw [World.commitOf, inv.territorial.settled_commit_outside outside]
    refine inv.kept pair fun reader owned => ?_
    have differs : reader ≠ session := by
      rintro rfl
      exact outside owned
    have before := uncommitted reader owned
    rwa [commitOf_phase_of_ne differs] at before
  committed reader committed := by
    by_cases isSession : reader = session
    · subst isSession
      have follows := inv.follows reader (by rw [idle]; exact id)
      rw [idle, finished] at follows
      obtain ⟨scan, done, table, script, loop, stage⟩ := follows
      rw [List.append_nil] at script
      cases stage with
      | idle _ rows =>
          refine ⟨scan, done, table, script.symm, loop, fun pair owned => ?_⟩
          rw [World.commitOf, settled_commit]
          exact rows pair owned
    · rw [commitOf_phase_of_ne isSession] at committed
      obtain ⟨scan, updates, table, script, loop, rows⟩ := inv.committed reader committed
      refine ⟨scan, updates, table, script, loop, fun pair owned => ?_⟩
      rw [World.commitOf, inv.territorial.settled_commit_outside
        (apart.others reader session isSession pair owned)]
      exact rows pair owned

theorem Sessions.Inv.follows_of (inv : sessions.Inv zone currency rate scripts) {phase : Phase}
    {calls : List (Except PgError Update)} (current : sessions.world.phase session = phase)
    (left : sessions.calls session = calls) (isRunning : ¬ phase.Ended) :
    Follows zone currency rate scripts session sessions.world.heap phase calls := by
  have follows := inv.follows session (current ▸ isRunning)
  rwa [current, left] at follows

theorem Sessions.Inv.advance (inv : sessions.Inv zone currency rate scripts) (apart : Apart scripts)
    (success : sessions.advance zone currency turn = some after) :
    after.Inv zone currency rate scripts := by
  cases turn with
  | call event =>
      obtain ⟨update, rest, world, calls, within, advanced, rfl⟩ := advance_call success
      have same : ∀ other, other ≠ event.session →
          sessions.calls other = sessions.calls other := fun _ _ => rfl
      cases event with
      | select session found =>
          obtain ⟨idle, takes, rfl⟩ := World.advance_select advanced
          have follows := (inv.follows_of idle calls id).select apart takes
          exact inv.enter _ _ (by simp [idle]) (by simp) same (calls.symm ▸ follows)
      | startUpdate session =>
          obtain ⟨found, selected, rfl⟩ := World.advance_startUpdate advanced
          have follows := (inv.follows_of selected calls id).startUpdate
          exact inv.enter _ _ (by simp [selected]) (by simp) same (calls.symm ▸ follows)
      | updateRow session index =>
          obtain ⟨found, targets, slot, _, updating, located, unlocked, outcome⟩ :=
            World.advance_updateRow advanced
          have follows := inv.follows_of updating calls id
          rcases outcome with ⟨row, isSeen, holds, free, rfl⟩ | ⟨unmatched, rfl⟩
          · have samePair := ((update.matches_iff row).mp holds).1
            refine inv.step _ _ _ (by simp [updating]) (by simp) same ?_
              (inv.keys.write located unlocked free) ?_ ?_ fun _ => ?_
            · exact inv.territorial.write located isSeen (update.edit_pair found row)
                (samePair ▸ follows.owns)
            · exact fun other differs pair =>
                Or.inl (seen_write_of_ne differs.symm located unlocked _)
            · exact fun pair => Or.inl (settled_write located _)
            · exact calls.symm ▸ follows.write located isSeen holds
          · have skipped := follows.skip located unmatched
            exact inv.enter _ _ (by simp [updating]) (by simp) same (calls.symm ▸ skipped)
      | finishUpdate session =>
          obtain ⟨found, updating, rfl⟩ := World.advance_finishUpdate advanced
          have follows := (inv.follows_of updating calls id).finishUpdate
          exact inv.enter _ _ (by simp [updating]) (by split <;> simp) same (calls.symm ▸ follows)
      | insert session =>
          obtain ⟨found, inserting, known, free, rfl⟩ := World.advance_insert advanced
          have follows := inv.follows_of inserting calls id
          refine inv.step _ _ _ (by simp [inserting]) (by simp) same ?_ (inv.keys.insert free)
            ?_ ?_ fun _ => ?_
          · exact inv.territorial.insert follows.owns
          · exact fun other differs pair => Or.inr (seen_insert_of_ne differs.symm _)
          · exact fun pair => Or.inr (settled_insert _)
          · exact calls.symm ▸ follows.insert known
      | commit session => exact within.elim
      | abort session => exact within.elim
  | next session =>
      obtain ⟨call, rest, found, calls, finished, rfl⟩ := advance_next success
      refine inv.enter _ _ (by simp [finished]) (by simp)
        (fun other differs => Function.update_of_ne differs _ _) ?_
      rw [Function.update_self]
      exact (inv.follows_of finished calls id).next inv.keys
  | commit session =>
      obtain ⟨calls, idle, rfl⟩ := advance_commit success
      exact inv.commit apart calls idle
  | abort session =>
      obtain ⟨isRunning, rfl⟩ := advance_abort success
      have isOpen : sessions.world.phase session ≠ .committed := by
        intro committed
        rw [committed] at isRunning
        exact isRunning trivial
      exact inv.step .aborted _ _ isOpen (by simp) (fun _ _ => rfl) inv.territorial.abort
        inv.keys.abort (fun other differs pair => Or.inl (seen_abort_of_ne differs.symm))
        (fun pair => Or.inl settled_abort) fun ended => absurd trivial ended

theorem Sessions.Inv.run (apart : Apart scripts) (inv : sessions.Inv zone currency rate scripts)
    {turns : List Turn} (success : sessions.run zone currency turns = some after) :
    after.Inv zone currency rate scripts :=
  Traces.trace_invariant (Sessions.Inv zone currency rate scripts)
    (fun _ _ _ before possible => before.advance apart possible) inv success

end

end ApostolRates
