import ApostolRates.Library.Rollback
import ApostolRates.Model.Reading

/-!
# Histories of calls

A history is a finite sequence of calls of `update_rate` on an empty table, each
rolled back when it raises.  A call brings everything that decides its outcome:
the arguments, any of which may be NULL, the currency table of that moment, and
the choice its `SELECT INTO` makes.
-/

set_option autoImplicit false

namespace ApostolRates

open ThreeValued ValidTime Rollback

structure Attempt where
  currency : CurrencyTable
  scan : Scan
  currencyFrom : Option Uuid
  currencyTo : Option Uuid
  value : Option Numeric
  date : Option Timestamptz

def Attempt.step (zone : TimeZone) (rate : RateTable) (attempt : Attempt) :
    Except PgError RateTable :=
  updateRate zone attempt.currency attempt.scan rate attempt.currencyFrom attempt.currencyTo
    attempt.value attempt.date

def history (zone : TimeZone) (attempts : List Attempt) : RateTable :=
  run (Attempt.step zone) .empty attempts

/-- Some history of calls in sessions of one time zone leaves the table. -/
def Reachable (zone : TimeZone) (rate : RateTable) : Prop :=
  ∃ attempts, history zone attempts = rate

/-- A call without NULL arguments, with the choice of its `SELECT INTO`. -/
structure Call where
  update : Update
  scan : Scan

def Call.step (zone : TimeZone) (currency : CurrencyTable) (rate : RateTable) (call : Call) :
    Except PgError RateTable :=
  call.update.apply zone currency call.scan rate

theorem Call.settle_ok {zone : TimeZone} {currency : CurrencyTable} {rate after : RateTable}
    (call : Call) (success : call.update.apply zone currency call.scan rate = .ok after) :
    settle (Call.step zone currency) rate call = after :=
  Rollback.settle_ok (Call.step zone currency) rate call after success

def Call.attempt (currency : CurrencyTable) (call : Call) : Attempt :=
  ⟨currency, call.scan, some call.update.currencyFrom, some call.update.currencyTo,
    some call.update.value, some call.update.date⟩

/-- A history in one time zone and over one currency table. -/
def runCalls (zone : TimeZone) (currency : CurrencyTable) (calls : List Call) : RateTable :=
  run (Call.step zone currency) .empty calls

theorem runCalls_eq_history (zone : TimeZone) (currency : CurrencyTable) (calls : List Call) :
    runCalls zone currency calls = history zone (calls.map (Call.attempt currency)) :=
  (run_map (Attempt.step zone) .empty (Call.attempt currency) calls).symm

theorem reachable_runCalls (zone : TimeZone) (currency : CurrencyTable) (calls : List Call) :
    Reachable zone (runCalls zone currency calls) :=
  ⟨_, (runCalls_eq_history zone currency calls).symm⟩

/-! ## A successful call has no NULL argument -/

section
variable {zone : TimeZone} {currency : CurrencyTable} {scan : Scan} {rate after : RateTable}
variable {pCurrencyFrom pCurrencyTo : Option Uuid} {pValue : Option Numeric}
variable {pDateFrom : Option Timestamptz}

theorem insert_ok_nonNull {validToDate : Option Timestamptz}
    (success : rate.insert currency pCurrencyFrom pCurrencyTo pValue pDateFrom validToDate =
      .ok after) :
    pCurrencyFrom ≠ none ∧ pCurrencyTo ≠ none ∧ pValue ≠ none ∧ pDateFrom ≠ none := by
  refine ⟨?_, ?_, ?_, ?_⟩ <;> intro null <;> subst null
  · cases success
  · cases pCurrencyFrom <;> cases success
  · cases pCurrencyFrom <;> cases pCurrencyTo <;> cases success
  · cases pCurrencyFrom <;> cases pCurrencyTo <;> cases pValue <;> cases success

/-- The first branch is only taken when a row matches, so that a NULL value fails there too. -/
theorem updateRate_ok_nonNull
    (success : updateRate zone currency scan rate pCurrencyFrom pCurrencyTo pValue pDateFrom =
      .ok after) :
    ∃ update : Update, pCurrencyFrom = some update.currencyFrom ∧
      pCurrencyTo = some update.currencyTo ∧ pValue = some update.value ∧
      pDateFrom = some update.date ∧ update.apply zone currency scan rate = .ok after := by
  have nonNull : pCurrencyFrom ≠ none ∧ pCurrencyTo ≠ none ∧ pValue ≠ none ∧
      pDateFrom ≠ none := by
    unfold updateRate at success
    simp only at success
    split at success
    · rename_i overwrites
      obtain ⟨foundSome, sameDate⟩ := (holds_both _ _).mp overwrites
      rw [holds_some, Option.isSome_iff_exists] at foundSome
      obtain ⟨row, taken⟩ := foundSome
      have member := Scan.selectInto_mem taken
      obtain ⟨_, holds⟩ := Multiset.mem_filter.mp member
      simp only [RateRow.inForce, holds_both, holds_equal, holds_atMost] at holds
      obtain ⟨⟨_, _, hasFrom⟩, ⟨_, _, hasTo⟩, ⟨_, _, _, hasDate, _⟩, _⟩ := holds
      refine ⟨by simp [hasFrom], by simp [hasTo], ?_, by simp [hasDate]⟩
      intro null
      subst null
      have matched : rate.rows.filter (fun row =>
          Holds (row.inForce pCurrencyFrom pCurrencyTo pDateFrom)) ≠ 0 := by
        intro nothing
        rw [selectRows, nothing] at member
        simp at member
      rw [RateTable.update, if_neg matched] at success
      cases success
    · obtain ⟨ended, _, inserted⟩ := except_bind_eq_ok.mp success
      exact insert_ok_nonNull inserted
  obtain ⟨hasFrom, hasTo, hasValue, hasDate⟩ := nonNull
  obtain ⟨currencyFrom, rfl⟩ := Option.ne_none_iff_exists'.mp hasFrom
  obtain ⟨currencyTo, rfl⟩ := Option.ne_none_iff_exists'.mp hasTo
  obtain ⟨value, rfl⟩ := Option.ne_none_iff_exists'.mp hasValue
  obtain ⟨date, rfl⟩ := Option.ne_none_iff_exists'.mp hasDate
  exact ⟨⟨currencyFrom, currencyTo, value, date⟩, rfl, rfl, rfl, rfl, success⟩

end

/-! ## The invariant of every history -/

/-- The timelines of a table are those of some history of revisions. -/
def RateTable.Sound (zone : TimeZone) (rate : RateTable) : Prop :=
  ∀ pair, ValidTime.Sound zone.maxDate (rate.timeline pair)

theorem sound_empty (zone : TimeZone) : RateTable.empty.Sound zone := fun _ =>
  sound_zero zone.maxDate

theorem sound_apply {zone : TimeZone} {currency : CurrencyTable} {scan : Scan}
    {rate after : RateTable} {update : Update} (sound : rate.Sound zone)
    (success : update.apply zone currency scan rate = .ok after) : after.Sound zone :=
  forall_timeline_apply success sound
    (sound_revise (sound update.pair) (update.taken_picks scan rate))

theorem sound_step {zone : TimeZone} (before : RateTable) (attempt : Attempt) (after : RateTable)
    (sound : before.Sound zone) (success : attempt.step zone before = .ok after) :
    after.Sound zone := by
  obtain ⟨update, _, _, _, _, applied⟩ := updateRate_ok_nonNull success
  exact sound_apply sound applied

theorem sound_history (zone : TimeZone) (attempts : List Attempt) :
    (history zone attempts).Sound zone :=
  run_invariant (Attempt.step zone) .empty (RateTable.Sound zone) sound_step (sound_empty zone)
    attempts

theorem Reachable.sound {zone : TimeZone} {rate : RateTable} (reachable : Reachable zone rate) :
    rate.Sound zone := by
  obtain ⟨attempts, rfl⟩ := reachable
  exact sound_history zone attempts

theorem Reachable.apply {zone : TimeZone} {currency : CurrencyTable} {scan : Scan}
    {rate after : RateTable} {update : Update} (reachable : Reachable zone rate)
    (success : update.apply zone currency scan rate = .ok after) : Reachable zone after := by
  obtain ⟨attempts, rfl⟩ := reachable
  refine ⟨attempts ++ [Call.attempt currency ⟨update, scan⟩], ?_⟩
  rw [history, run_concat]
  exact settle_ok _ _ _ after success

def RateTable.References (currency : CurrencyTable) (rate : RateTable) : Prop :=
  ∀ row ∈ rate.rows, currency.References row.currencyFrom ∧ currency.References row.currencyTo

theorem references_apply {zone : TimeZone} {currency : CurrencyTable} {scan : Scan}
    {rate after : RateTable} {update : Update} (references : rate.References currency)
    (success : update.apply zone currency scan rate = .ok after) : after.References currency := by
  obtain ⟨stored, permitted⟩ := (update.apply_eq_ok_iff zone currency scan rate).mp success
  have kept : ∀ (edit : RateRow → RateRow), (∀ row, (edit row).pair = row.pair) →
      ∀ row ∈ rate.rows.map edit,
        currency.References row.currencyFrom ∧ currency.References row.currencyTo := by
    intro edit keeps row member
    obtain ⟨old, oldMember, rfl⟩ := Multiset.mem_map.mp member
    obtain ⟨sameFrom, sameTo⟩ := Prod.mk.injEq .. ▸ keeps old
    rw [sameFrom, sameTo]
    exact references old oldMember
  intro row member
  rw [← stored, Update.rows] at member
  split at member
  · exact kept update.setValue update.setValue_pair row member
  · rename_i inserts
    rcases Multiset.mem_cons.mp member with rfl | member
    · exact permitted.resolve_left inserts
    · exact kept update.setEnd update.setEnd_pair row member

theorem references_runCalls (zone : TimeZone) (currency : CurrencyTable) (calls : List Call) :
    (runCalls zone currency calls).References currency :=
  run_invariant (Call.step zone currency) .empty (RateTable.References currency)
    (fun _ _ _ references success => references_apply references success)
    (fun _ member => absurd member (Multiset.notMem_zero _)) calls

/-! ## Calls whose outcome no choice decides -/

section
variable {zone : TimeZone} {currency : CurrencyTable} {rate after : RateTable} {update : Update}

theorem apply_of_uncovered (scan : Scan) (known : update.Known currency)
    (nothing : selectRows rate.rows (some update.currencyFrom) (some update.currencyTo)
      (some update.date) = 0) (rows : update.rows zone none rate.rows = after.rows) :
    update.apply zone currency scan rate = .ok after := by
  have taken : update.taken scan rate = none := Scan.selectInto_eq_none.mpr nothing
  exact (update.apply_eq_ok_iff zone currency scan rate).mpr ⟨by rw [taken, rows], .inr known⟩

theorem apply_of_covered (scan : Scan) (known : update.Known currency)
    (something : selectRows rate.rows (some update.currencyFrom) (some update.currencyTo)
      (some update.date) ≠ 0)
    (rows : ∀ row ∈ selectRows rate.rows (some update.currencyFrom) (some update.currencyTo)
      (some update.date), update.rows zone (some row) rate.rows = after.rows) :
    update.apply zone currency scan rate = .ok after := by
  refine (update.apply_eq_ok_iff zone currency scan rate).mpr ⟨?_, .inr known⟩
  cases taken : update.taken scan rate with
  | none => exact absurd (Scan.selectInto_eq_none.mp taken) something
  | some row => exact rows row (Scan.selectInto_mem taken)

end

/-! ## The first call on an empty table -/

def firstRate : Update := ⟨usd.id, rub.id, .finite 96245026 6, .onDay 9000⟩

def firstTable : RateTable :=
  ⟨{⟨usd.id, rub.id, .finite 96245026 6, .onDay 9000, TimeZone.utc.maxDate⟩}, by decide⟩

theorem firstRate_apply (scan : Scan) :
    firstRate.apply .utc .init scan .empty = .ok firstTable :=
  apply_of_uncovered scan (by decide) (by decide) (by decide)

/-! ## Calls that leave overlapping periods -/

/-- USD to RUB as of three days, each before the one given last. -/
def overlappingCalls (first second third : Scan) : List Call :=
  [⟨⟨usd.id, rub.id, .finite 98 0, .onDay 9010⟩, first⟩, ⟨firstRate, second⟩,
    ⟨⟨usd.id, rub.id, .finite 95 0, .onDay 8995⟩, third⟩]

def oneRateTable : RateTable :=
  ⟨{⟨usd.id, rub.id, .finite 98 0, .onDay 9010, TimeZone.utc.maxDate⟩}, by decide⟩

def twoRatesTable : RateTable :=
  ⟨{⟨usd.id, rub.id, .finite 96245026 6, .onDay 9000, TimeZone.utc.maxDate⟩,
      ⟨usd.id, rub.id, .finite 98 0, .onDay 9010, TimeZone.utc.maxDate⟩}, by decide⟩

def overlappingTable : RateTable :=
  ⟨{⟨usd.id, rub.id, .finite 95 0, .onDay 8995, TimeZone.utc.maxDate⟩,
      ⟨usd.id, rub.id, .finite 96245026 6, .onDay 9000, TimeZone.utc.maxDate⟩,
      ⟨usd.id, rub.id, .finite 98 0, .onDay 9010, TimeZone.utc.maxDate⟩}, by decide⟩

theorem overlappingCalls_run (first second third : Scan) :
    runCalls .utc .init ((overlappingCalls first second third).take 1) = oneRateTable ∧
      runCalls .utc .init ((overlappingCalls first second third).take 2) = twoRatesTable ∧
      runCalls .utc .init (overlappingCalls first second third) = overlappingTable := by
  have one : (⟨usd.id, rub.id, .finite 98 0, .onDay 9010⟩ : Update).apply .utc .init first
      .empty = .ok oneRateTable := apply_of_uncovered first (by decide) (by decide) (by decide)
  have two : firstRate.apply .utc .init second oneRateTable = .ok twoRatesTable :=
    apply_of_uncovered second (by decide) (by decide) (by decide)
  have three : (⟨usd.id, rub.id, .finite 95 0, .onDay 8995⟩ : Update).apply .utc .init third
      twoRatesTable = .ok overlappingTable :=
    apply_of_uncovered third (by decide) (by decide) (by decide)
  replace one := Call.settle_ok ⟨_, first⟩ one
  replace two := Call.settle_ok ⟨firstRate, second⟩ two
  replace three := Call.settle_ok ⟨_, third⟩ three
  simp only [overlappingCalls, List.take_succ_cons, List.take_zero, runCalls, run,
    List.foldl_cons, List.foldl_nil]
  rw [one, two, three]
  exact ⟨rfl, rfl, rfl⟩

theorem overlappingTable_reachable : Reachable .utc overlappingTable :=
  (overlappingCalls_run .any .any .any).2.2 ▸ reachable_runCalls .utc .init _

/-- As of a day when two of the periods are in force and before the third. -/
def laterRate : Update := ⟨usd.id, rub.id, .finite 97 0, .onDay 9005⟩

def laterTable : RateTable :=
  ⟨{⟨usd.id, rub.id, .finite 97 0, .onDay 9005, TimeZone.utc.maxDate⟩,
      ⟨usd.id, rub.id, .finite 95 0, .onDay 8995, .onDay 9005⟩,
      ⟨usd.id, rub.id, .finite 96245026 6, .onDay 9000, .onDay 9005⟩,
      ⟨usd.id, rub.id, .finite 98 0, .onDay 9010, TimeZone.utc.maxDate⟩}, by decide⟩

theorem laterRate_apply (scan : Scan) :
    laterRate.apply .utc .init scan overlappingTable = .ok laterTable :=
  apply_of_covered scan (by decide) (by decide) (by decide)

end ApostolRates
