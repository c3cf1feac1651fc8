import ApostolRates.Library.Overlap
import ApostolRates.Library.Rollback
import ApostolRates.Model.Rate

/-!
# A rate table as one timeline for each currency pair

The rows of a pair are a timeline, and a table is determined by its timelines.
Seen this way `update_rate` revises the timeline of its own pair and leaves every
other one alone; everything later in the development uses the two theorems
`updateRate_ok` and `updateRate_succeeds_iff` instead of the body of the routine.
-/

set_option autoImplicit false

namespace ApostolRates

open ThreeValued ValidTime Rollback

def RateRow.period (row : RateRow) : Period Timestamptz Numeric :=
  ⟨row.validFromDate, row.validToDate, row.value⟩

def pairRows (rows : Multiset RateRow) (pair : Uuid × Uuid) : Multiset RateRow :=
  rows.filter fun row => row.pair = pair

def timelineOf (rows : Multiset RateRow) (pair : Uuid × Uuid) : Timeline Timestamptz Numeric :=
  (pairRows rows pair).map RateRow.period

def RateTable.timeline (rate : RateTable) (pair : Uuid × Uuid) :
    Timeline Timestamptz Numeric :=
  timelineOf rate.rows pair

/-- Arguments of a call of `update_rate` none of which is NULL. -/
structure Update where
  currencyFrom : Uuid
  currencyTo : Uuid
  value : Numeric
  date : Timestamptz
  deriving DecidableEq

def Update.pair (update : Update) : Uuid × Uuid := (update.currencyFrom, update.currencyTo)

def Update.apply (zone : TimeZone) (currency : CurrencyTable) (scan : Scan) (rate : RateTable)
    (update : Update) : Except PgError RateTable :=
  updateRate zone currency scan rate (some update.currencyFrom) (some update.currencyTo)
    (some update.value) (some update.date)

def Update.Known (currency : CurrencyTable) (update : Update) : Prop :=
  currency.References update.currencyFrom ∧ currency.References update.currencyTo

instance (currency : CurrencyTable) (update : Update) : Decidable (update.Known currency) :=
  inferInstanceAs (Decidable (_ ∧ _))

/-! ## Rows and timelines -/

theorem RateRow.inForce_iff (row : RateRow) (currencyFrom currencyTo : Uuid)
    (date : Timestamptz) :
    Holds (row.inForce (some currencyFrom) (some currencyTo) (some date)) ↔
      row.pair = (currencyFrom, currencyTo) ∧ row.period.Covers date := by
  simp only [RateRow.inForce, holds_both, holds_equal, holds_atMost, holds_above,
    Option.some.injEq, RateRow.pair, RateRow.period, Period.Covers, Prod.mk.injEq]
  constructor
  · rintro ⟨⟨_, rfl, rfl⟩, ⟨_, rfl, rfl⟩, ⟨_, _, rfl, rfl, starts⟩, _, _, rfl, rfl, stops⟩
    exact ⟨⟨rfl, rfl⟩, starts, stops⟩
  · rintro ⟨⟨rfl, rfl⟩, starts, stops⟩
    exact ⟨⟨_, rfl, rfl⟩, ⟨_, rfl, rfl⟩, ⟨_, _, rfl, rfl, starts⟩, _, _, rfl, rfl, stops⟩

theorem selectRows_eq (rows : Multiset RateRow) (currencyFrom currencyTo : Uuid)
    (date : Timestamptz) :
    selectRows rows (some currencyFrom) (some currencyTo) (some date) =
      (pairRows rows (currencyFrom, currencyTo)).filter fun row => row.period.Covers date := by
  unfold selectRows pairRows
  rw [Multiset.filter_filter]
  exact Multiset.filter_congr fun row _ => (row.inForce_iff _ _ _).trans and_comm

theorem mem_selectRows {rows : Multiset RateRow} {currencyFrom currencyTo : Uuid}
    {date : Timestamptz} {row : RateRow} :
    row ∈ selectRows rows (some currencyFrom) (some currencyTo) (some date) ↔
      row ∈ rows ∧ row.pair = (currencyFrom, currencyTo) ∧ row.period.Covers date := by
  rw [selectRows, Multiset.mem_filter, RateRow.inForce_iff]

theorem selectRows_map_period (rows : Multiset RateRow) (currencyFrom currencyTo : Uuid)
    (date : Timestamptz) :
    (selectRows rows (some currencyFrom) (some currencyTo) (some date)).map RateRow.period =
      covering date (timelineOf rows (currencyFrom, currencyTo)) := by
  rw [selectRows_eq, covering, timelineOf, Multiset.filter_map]
  rfl

theorem mem_timelineOf {rows : Multiset RateRow} {pair : Uuid × Uuid}
    {period : Period Timestamptz Numeric} :
    period ∈ timelineOf rows pair ↔ ∃ row ∈ rows, row.pair = pair ∧ row.period = period := by
  simp [timelineOf, pairRows, and_assoc]

theorem exists_row_iff {rate : RateTable} {pair : Uuid × Uuid}
    (chosen : Period Timestamptz Numeric → Prop) :
    (∃ row ∈ rate.rows, row.pair = pair ∧ chosen row.period) ↔
      ∃ period ∈ rate.timeline pair, chosen period := by
  constructor
  · rintro ⟨row, member, samePair, holds⟩
    exact ⟨row.period, mem_timelineOf.mpr ⟨row, member, samePair, rfl⟩, holds⟩
  · rintro ⟨period, member, holds⟩
    obtain ⟨row, rowMember, samePair, rfl⟩ := mem_timelineOf.mp member
    exact ⟨row, rowMember, samePair, holds⟩

theorem forall_row_iff {rate : RateTable} {pair : Uuid × Uuid}
    (chosen : Period Timestamptz Numeric → Prop) :
    (∀ row ∈ rate.rows, row.pair = pair → chosen row.period) ↔
      ∀ period ∈ rate.timeline pair, chosen period := by
  constructor
  · intro all period member
    obtain ⟨row, rowMember, samePair, rfl⟩ := mem_timelineOf.mp member
    exact all row rowMember samePair
  · intro all row member samePair
    exact all row.period (mem_timelineOf.mpr ⟨row, member, samePair, rfl⟩)

def rowOf (pair : Uuid × Uuid) (period : Period Timestamptz Numeric) : RateRow :=
  ⟨pair.1, pair.2, period.value, period.start, period.stop⟩

theorem pairRows_eq (rows : Multiset RateRow) (pair : Uuid × Uuid) :
    pairRows rows pair = (timelineOf rows pair).map (rowOf pair) := by
  rw [timelineOf, Multiset.map_map]
  conv_lhs => rw [← Multiset.map_id (pairRows rows pair)]
  refine Multiset.map_congr rfl fun row member => ?_
  rw [← (Multiset.mem_filter.mp member).2]
  rfl

theorem rows_eq_of_timelines {left right : Multiset RateRow}
    (same : ∀ pair, timelineOf left pair = timelineOf right pair) : left = right := by
  ext row
  have counted : ∀ rows : Multiset RateRow,
      rows.count row = (pairRows rows row.pair).count row := by
    intro rows
    rw [pairRows, Multiset.count_filter, if_pos rfl]
  rw [counted left, counted right, pairRows_eq left, pairRows_eq right, same]

theorem RateTable.ext_rows {left right : RateTable} (same : left.rows = right.rows) :
    left = right := by
  cases left
  cases right
  cases same
  rfl

theorem RateTable.ext_timelines {left right : RateTable}
    (same : ∀ pair, left.timeline pair = right.timeline pair) : left = right :=
  RateTable.ext_rows (rows_eq_of_timelines same)

/-- The unique index is the distinctness of the ends within each pair. -/
theorem key_nodup_iff (rows : Multiset RateRow) :
    (rows.map RateRow.key).Nodup ↔ ∀ pair, Distinct (timelineOf rows pair) := by
  have counted : ∀ (pair : Uuid × Uuid) (ends : Timestamptz × Timestamptz),
      ((timelineOf rows pair).map Period.ends).count ends =
        (rows.map RateRow.key).count (pair.1, pair.2, ends.1, ends.2) := by
    intro pair ends
    rw [timelineOf, Multiset.map_map, Multiset.count_map, Multiset.count_map, pairRows,
      Multiset.filter_filter]
    congr 1
    refine Multiset.filter_congr fun row _ => ?_
    simp only [Function.comp_apply, Period.ends, RateRow.period, RateRow.pair, RateRow.key,
      Prod.ext_iff]
    tauto
  simp only [Distinct, Multiset.nodup_iff_count_le_one]
  constructor
  · intro once pair ends
    rw [counted]
    exact once _
  · intro once key
    have bound := once (key.1, key.2.1) (key.2.2.1, key.2.2.2)
    rwa [counted] at bound

theorem RateTable.distinct (rate : RateTable) (pair : Uuid × Uuid) :
    Distinct (rate.timeline pair) :=
  (key_nodup_iff rate.rows).mp rate.keyUnique pair

theorem timelineOf_cons_self (row : RateRow) (rows : Multiset RateRow) :
    timelineOf (row ::ₘ rows) row.pair = row.period ::ₘ timelineOf rows row.pair := by
  have kept : pairRows (row ::ₘ rows) row.pair = row ::ₘ pairRows rows row.pair :=
    Multiset.filter_cons_of_pos rows rfl
  rw [timelineOf, kept, Multiset.map_cons]
  rfl

theorem timelineOf_cons_of_ne {row : RateRow} {pair : Uuid × Uuid} (differs : row.pair ≠ pair)
    (rows : Multiset RateRow) : timelineOf (row ::ₘ rows) pair = timelineOf rows pair := by
  have dropped : pairRows (row ::ₘ rows) pair = pairRows rows pair :=
    Multiset.filter_cons_of_neg rows differs
  rw [timelineOf, dropped]
  rfl

theorem timelineOf_map {edit : RateRow → RateRow} {pair : Uuid × Uuid}
    (periodEdit : Period Timestamptz Numeric → Period Timestamptz Numeric)
    (keeps : ∀ row, (edit row).pair = row.pair)
    (agrees : ∀ row, row.pair = pair → (edit row).period = periodEdit row.period)
    (rows : Multiset RateRow) :
    timelineOf (rows.map edit) pair = (timelineOf rows pair).map periodEdit := by
  unfold timelineOf pairRows
  rw [Multiset.filter_map, Multiset.map_map, Multiset.map_map]
  simp only [Function.comp_def, keeps]
  exact Multiset.map_congr rfl fun row member => agrees row (Multiset.mem_filter.mp member).2

/-! ## The statements of `update_rate` -/

theorem store_eq_ok {rows : Multiset RateRow} {rate : RateTable} :
    store rows = .ok rate ↔ rows = rate.rows := by
  unfold store
  split
  · constructor
    · intro stored
      cases stored
      rfl
    · intro same
      exact congrArg Except.ok (RateTable.ext_rows same)
  · rename_i duplicate
    simp only [reduceCtorEq, false_iff]
    intro same
    exact duplicate (same ▸ rate.keyUnique)

theorem Scan.selectInto_mem {scan : Scan} {rows : Multiset RateRow} {row : RateRow}
    (taken : scan.selectInto rows = some row) : row ∈ rows := by
  unfold Scan.selectInto at taken
  split at taken
  · rename_i found
    cases taken
    exact (scan rows found).property
  · cases taken

theorem Scan.selectInto_eq_none {scan : Scan} {rows : Multiset RateRow} :
    scan.selectInto rows = none ↔ rows = 0 := by
  unfold Scan.selectInto
  split
  · rename_i found
    simp [found]
  · rename_i missing
    simpa using missing

noncomputable def Scan.any : Scan := fun _ found =>
  ⟨_, (Multiset.exists_mem_of_ne_zero found).choose_spec⟩

/-- A choice that takes `row` wherever it can. -/
noncomputable def Scan.preferring (row : RateRow) : Scan := fun rows found =>
  if member : row ∈ rows then ⟨row, member⟩ else Scan.any rows found

theorem Scan.selectInto_preferring {row : RateRow} {rows : Multiset RateRow}
    (member : row ∈ rows) : (Scan.preferring row).selectInto rows = some row := by
  have found : rows ≠ 0 := fun none => by simp [none] at member
  simp [Scan.selectInto, Scan.preferring, found, member]

section
variable (zone : TimeZone) (currency : CurrencyTable) (scan : Scan) (rate : RateTable)
variable (update : Update)

/-- The row that the `SELECT INTO` of a call takes. -/
def Update.taken : Option RateRow :=
  scan.selectInto (selectRows rate.rows (some update.currencyFrom) (some update.currencyTo)
    (some update.date))

theorem Update.taken_picks :
    Picks update.date (rate.timeline update.pair)
      ((update.taken scan rate).map RateRow.period) := by
  cases taken : update.taken scan rate with
  | none =>
      have nothing := Scan.selectInto_eq_none.mp taken
      intro period member covers
      obtain ⟨row, rowMember, samePair, rfl⟩ := mem_timelineOf.mp member
      have selected := mem_selectRows.mpr ⟨rowMember, samePair, covers⟩
      rw [nothing] at selected
      simp at selected
  | some row =>
      obtain ⟨member, samePair, covers⟩ := mem_selectRows.mp (Scan.selectInto_mem taken)
      exact ⟨mem_timelineOf.mpr ⟨row, member, samePair, rfl⟩, covers⟩

/-- The first branch of the routine is taken when the look-up has found a row that
starts at the date. -/
def Update.Overwrites (found : Option RateRow) : Prop :=
  found.map RateRow.validFromDate = some update.date

instance (found : Option RateRow) : Decidable (update.Overwrites found) :=
  inferInstanceAs (Decidable (_ = _))

theorem Update.overwrites_iff {found : Option RateRow} :
    (found.map RateRow.period).map Period.start = some update.date ↔ update.Overwrites found := by
  rw [Option.map_map]
  rfl

def Update.setValue (row : RateRow) : RateRow :=
  if Holds (row.inForce (some update.currencyFrom) (some update.currencyTo) (some update.date))
  then { row with value := update.value } else row

def Update.setEnd (row : RateRow) : RateRow :=
  if Holds (row.inForce (some update.currencyFrom) (some update.currencyTo) (some update.date))
  then { row with validToDate := update.date } else row

/-- The row that the `INSERT` adds after the look-up has found a row or none. -/
def Update.newRow (found : Option RateRow) : RateRow :=
  ⟨update.currencyFrom, update.currencyTo, update.value, update.date,
    (found.map RateRow.validToDate).getD zone.maxDate⟩

/-- What the branch taken after a look-up makes of the rows. -/
def Update.rows (found : Option RateRow) (rows : Multiset RateRow) : Multiset RateRow :=
  if update.Overwrites found then rows.map update.setValue
  else update.newRow zone found ::ₘ rows.map update.setEnd

theorem RateTable.update_ok (chosen : RateRow → Tri) (change : RateRow → RateRow) :
    rate.update chosen (.ok change) =
      store (rate.rows.map fun row => if Holds (chosen row) then change row else row) := by
  unfold RateTable.update
  split
  · rename_i nothing
    have unchanged : (rate.rows.map fun row => if Holds (chosen row) then change row else row) =
        rate.rows := by
      conv_rhs => rw [← Multiset.map_id rate.rows]
      refine Multiset.map_congr rfl fun row member => ?_
      rw [if_neg (Multiset.filter_eq_nil.mp nothing row member)]
      rfl
    rw [unchanged]
    exact (store_eq_ok.mpr rfl).symm
  · rfl

theorem Update.apply_eq :
    update.apply zone currency scan rate =
      if update.Overwrites (update.taken scan rate) then store (rate.rows.map update.setValue)
      else (do
        let ended ← store (rate.rows.map update.setEnd)
        let stored ← store (update.newRow zone (update.taken scan rate) ::ₘ ended.rows)
        if update.Known currency then .ok stored else .error .foreignKeyViolation) := by
  have branch : Holds (both (some (update.taken scan rate).isSome)
      (equal (some update.date) ((update.taken scan rate).map RateRow.validFromDate))) ↔
        update.Overwrites (update.taken scan rate) := by
    unfold Update.Overwrites
    cases update.taken scan rate <;> simp [eq_comm]
  unfold Update.apply updateRate
  simp only [notNull, Except.map, RateTable.update_ok]
  change (if Holds (both (some (update.taken scan rate).isSome)
      (equal (some update.date) ((update.taken scan rate).map RateRow.validFromDate))) then _
    else _) = _
  by_cases overwrites : update.Overwrites (update.taken scan rate)
  · rw [if_pos (branch.mpr overwrites), if_pos overwrites]
    rfl
  · rw [if_neg fun holds => overwrites (branch.mp holds), if_neg overwrites]
    rfl

/-- A call succeeds with exactly the rows of its branch, if these respect the unique
index and the row it inserts names two currencies. -/
theorem Update.apply_eq_ok_iff {after : RateTable} :
    update.apply zone currency scan rate = .ok after ↔
      update.rows zone (update.taken scan rate) rate.rows = after.rows ∧
        (update.Overwrites (update.taken scan rate) ∨ update.Known currency) := by
  rw [Update.apply_eq, Update.rows]
  by_cases overwrites : update.Overwrites (update.taken scan rate)
  · simp [overwrites, store_eq_ok]
  · simp only [overwrites, if_false, false_or]
    constructor
    · intro success
      obtain ⟨ended, endedStore, success⟩ := except_bind_eq_ok.mp success
      obtain ⟨stored, insertedStore, success⟩ := except_bind_eq_ok.mp success
      have endedRows := store_eq_ok.mp endedStore
      split at success
      · rename_i known
        cases success
        exact ⟨endedRows ▸ store_eq_ok.mp insertedStore, known⟩
      · cases success
    · rintro ⟨inserted, known⟩
      have whole : ((update.newRow zone (update.taken scan rate) ::ₘ
          rate.rows.map update.setEnd).map RateRow.key).Nodup := inserted ▸ after.keyUnique
      rw [Multiset.map_cons, Multiset.nodup_cons] at whole
      have endedStore : store (rate.rows.map update.setEnd) = .ok ⟨_, whole.2⟩ :=
        store_eq_ok.mpr rfl
      simp only [endedStore, bind, Except.bind]
      rw [store_eq_ok.mpr inserted]
      simp [known]

theorem Update.setValue_pair (row : RateRow) : (update.setValue row).pair = row.pair := by
  unfold Update.setValue
  split <;> rfl

theorem Update.setEnd_pair (row : RateRow) : (update.setEnd row).pair = row.pair := by
  unfold Update.setEnd
  split <;> rfl

theorem Update.setValue_period (row : RateRow) (samePair : row.pair = update.pair) :
    (update.setValue row).period = row.period.assign update.date update.value := by
  have chosen : Holds (row.inForce (some update.currencyFrom) (some update.currencyTo)
      (some update.date)) ↔ row.period.Covers update.date := by
    rw [RateRow.inForce_iff]
    exact and_iff_right samePair
  unfold Update.setValue Period.assign
  by_cases covers : row.period.Covers update.date
  · rw [if_pos (chosen.mpr covers), if_pos covers]
    rfl
  · rw [if_neg fun holds => covers (chosen.mp holds), if_neg covers]

theorem Update.setEnd_period (row : RateRow) (samePair : row.pair = update.pair) :
    (update.setEnd row).period = row.period.cut update.date := by
  have chosen : Holds (row.inForce (some update.currencyFrom) (some update.currencyTo)
      (some update.date)) ↔ row.period.Covers update.date := by
    rw [RateRow.inForce_iff]
    exact and_iff_right samePair
  unfold Update.setEnd Period.cut
  by_cases covers : row.period.Covers update.date
  · rw [if_pos (chosen.mpr covers), if_pos covers]
    rfl
  · rw [if_neg fun holds => covers (chosen.mp holds), if_neg covers]

theorem Update.setValue_of_ne (row : RateRow) (differs : row.pair ≠ update.pair) :
    update.setValue row = row :=
  if_neg fun holds => differs ((row.inForce_iff _ _ _).mp holds).1

theorem Update.setEnd_of_ne (row : RateRow) (differs : row.pair ≠ update.pair) :
    update.setEnd row = row :=
  if_neg fun holds => differs ((row.inForce_iff _ _ _).mp holds).1

variable (found : Option RateRow) (rows : Multiset RateRow)

/-- On its own pair a call is a revision. -/
theorem Update.timeline_rows :
    timelineOf (update.rows zone found rows) update.pair =
      revise zone.maxDate update.date update.value (found.map RateRow.period)
        (timelineOf rows update.pair) := by
  have starts : (found.map RateRow.period).map Period.start = found.map RateRow.validFromDate := by
    rw [Option.map_map]
    rfl
  have stops : (found.map RateRow.period).map Period.stop = found.map RateRow.validToDate := by
    rw [Option.map_map]
    rfl
  unfold Update.rows revise
  rw [starts, stops]
  by_cases overwrites : update.Overwrites found
  · rw [if_pos overwrites]
    rw [Update.Overwrites] at overwrites
    rw [if_pos overwrites]
    exact timelineOf_map _ update.setValue_pair update.setValue_period rows
  · rw [if_neg overwrites]
    rw [Update.Overwrites] at overwrites
    rw [if_neg overwrites]
    have added := timelineOf_cons_self (update.newRow zone found) (rows.map update.setEnd)
    have ended := timelineOf_map _ update.setEnd_pair update.setEnd_period rows
    rw [show update.pair = (update.newRow zone found).pair from rfl, added]
    rw [show (update.newRow zone found).pair = update.pair from rfl, ended]
    rfl

theorem Update.timeline_rows_of_ne {pair : Uuid × Uuid} (differs : pair ≠ update.pair) :
    timelineOf (update.rows zone found rows) pair = timelineOf rows pair := by
  unfold Update.rows
  by_cases overwrites : update.Overwrites found
  · rw [if_pos overwrites,
      timelineOf_map id update.setValue_pair
        (fun row samePair => by
          rw [update.setValue_of_ne row (samePair ▸ differs)]
          rfl) rows]
    exact Multiset.map_id _
  · have notNew : (update.newRow zone found).pair ≠ pair := Ne.symm differs
    rw [if_neg overwrites, timelineOf_cons_of_ne notNew,
      timelineOf_map id update.setEnd_pair
        (fun row samePair => by
          rw [update.setEnd_of_ne row (samePair ▸ differs)]
          rfl) rows]
    exact Multiset.map_id _

end

section
variable {zone : TimeZone} {currency : CurrencyTable} {scan : Scan} {rate after : RateTable}
variable {update : Update}

theorem updateRate_ok (success : update.apply zone currency scan rate = .ok after) :
    after.timeline update.pair =
        revise zone.maxDate update.date update.value ((update.taken scan rate).map RateRow.period)
          (rate.timeline update.pair) ∧
      ∀ pair, pair ≠ update.pair → after.timeline pair = rate.timeline pair := by
  have stored := ((update.apply_eq_ok_iff zone currency scan rate).mp success).1
  constructor
  · rw [RateTable.timeline, ← stored]
    exact update.timeline_rows zone _ _
  · intro pair differs
    rw [RateTable.timeline, ← stored]
    exact update.timeline_rows_of_ne zone _ _ differs

theorem forall_timeline_apply {holds : Timeline Timestamptz Numeric → Prop}
    (success : update.apply zone currency scan rate = .ok after)
    (before : ∀ pair, holds (rate.timeline pair))
    (revised : holds (revise zone.maxDate update.date update.value
      ((update.taken scan rate).map RateRow.period) (rate.timeline update.pair))) :
    ∀ pair, holds (after.timeline pair) := by
  obtain ⟨own, others⟩ := updateRate_ok success
  intro pair
  by_cases same : pair = update.pair
  · rw [same, own]
    exact revised
  · rw [others pair same]
    exact before pair

theorem updateRate_succeeds_iff :
    (∃ after, update.apply zone currency scan rate = .ok after) ↔
      Distinct (revise zone.maxDate update.date update.value
          ((update.taken scan rate).map RateRow.period) (rate.timeline update.pair)) ∧
        (update.Overwrites (update.taken scan rate) ∨ update.Known currency) := by
  constructor
  · rintro ⟨after, success⟩
    refine ⟨?_, ((update.apply_eq_ok_iff zone currency scan rate).mp success).2⟩
    rw [← (updateRate_ok success).1]
    exact after.distinct update.pair
  · rintro ⟨distinct, permitted⟩
    have keyUnique :
        ((update.rows zone (update.taken scan rate) rate.rows).map RateRow.key).Nodup := by
      refine (key_nodup_iff _).mpr fun pair => ?_
      by_cases same : pair = update.pair
      · rw [same, update.timeline_rows]
        exact distinct
      · rw [update.timeline_rows_of_ne _ _ _ same]
        exact rate.distinct pair
    exact ⟨⟨_, keyUnique⟩, (update.apply_eq_ok_iff zone currency scan rate).mpr ⟨rfl, permitted⟩⟩

theorem Update.taken_preferring {row : RateRow} (member : row ∈ rate.rows)
    (samePair : row.pair = update.pair) (covers : row.period.Covers update.date) :
    update.taken (.preferring row) rate = some row :=
  Scan.selectInto_preferring (mem_selectRows.mpr ⟨member, samePair, covers⟩)

theorem Update.taken_congr {left right : RateTable}
    (same : left.timeline update.pair = right.timeline update.pair) :
    update.taken scan left = update.taken scan right := by
  unfold Update.taken
  rw [selectRows_eq, selectRows_eq, pairRows_eq, pairRows_eq]
  exact congrArg (fun timeline => scan.selectInto
    ((timeline.map (rowOf update.pair)).filter fun row => row.period.Covers update.date)) same

/-- Whether a call succeeds, and what it makes of its timeline, depends on that timeline only. -/
theorem apply_local {other : RateTable}
    (same : rate.timeline update.pair = other.timeline update.pair)
    (success : update.apply zone currency scan rate = .ok after) :
    ∃ otherAfter, update.apply zone currency scan other = .ok otherAfter ∧
      otherAfter.timeline update.pair = after.timeline update.pair := by
  have taken : update.taken scan rate = update.taken scan other := update.taken_congr same
  have holds := updateRate_succeeds_iff.mp ⟨after, success⟩
  rw [taken, same] at holds
  obtain ⟨otherAfter, otherSuccess⟩ := updateRate_succeeds_iff.mpr holds
  refine ⟨otherAfter, otherSuccess, ?_⟩
  rw [(updateRate_ok otherSuccess).1, (updateRate_ok success).1, taken, same]

theorem apply_exchange {first second : Update} {before middle last : RateTable}
    (apart : first.pair ≠ second.pair)
    (firstSuccess : first.apply zone currency scan before = .ok middle)
    (secondSuccess : second.apply zone currency scan middle = .ok last) :
    ∃ other, second.apply zone currency scan before = .ok other ∧
      first.apply zone currency scan other = .ok last := by
  have firstOthers := (updateRate_ok firstSuccess).2
  have secondOthers := (updateRate_ok secondSuccess).2
  obtain ⟨other, otherSuccess, otherOwn⟩ :=
    apply_local (firstOthers second.pair apart.symm) secondSuccess
  have otherOthers := (updateRate_ok otherSuccess).2
  obtain ⟨again, againSuccess, againOwn⟩ :=
    apply_local (otherOthers first.pair apart).symm firstSuccess
  have againOthers := (updateRate_ok againSuccess).2
  have same : again = last := by
    refine RateTable.ext_timelines fun pair => ?_
    by_cases isFirst : pair = first.pair
    · rw [isFirst, againOwn, secondOthers first.pair apart]
    · rw [againOthers pair isFirst]
      by_cases isSecond : pair = second.pair
      · rw [isSecond, otherOwn]
      · rw [otherOthers pair isSecond, secondOthers pair isSecond, firstOthers pair isFirst]
  exact ⟨other, otherSuccess, same ▸ againSuccess⟩

end
end ApostolRates
