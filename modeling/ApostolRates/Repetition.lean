import ApostolRates.Overlaps

/-!
# The past and the repeat

Overwriting changes every row in force at the date, also those that began earlier,
so that where such rows lie side by side a call can reach into the past and its
repeat need not be an overwrite.  Both are exact conditions on the rows in force
at the date of the call.
-/

set_option autoImplicit false

namespace ApostolRates

open ThreeValued ValidTime Rollback

/-- The values in force at every instant before the date of the call, and with
them the answers of `get_rate`, are the same in both tables. -/
def Update.SamePast (update : Update) (rate after : RateTable) : Prop :=
  ∀ instant, instant < update.date →
    (selectRows after.rows (some update.currencyFrom) (some update.currencyTo)
        (some instant)).map RateRow.value =
      (selectRows rate.rows (some update.currencyFrom) (some update.currencyTo)
        (some instant)).map RateRow.value ∧
    ∀ answer,
      (∃ look, getRate look after (some update.currencyFrom) (some update.currencyTo)
        (some instant) = answer) ↔
      ∃ look, getRate look rate (some update.currencyFrom) (some update.currencyTo)
        (some instant) = answer

theorem samePast_iff (update : Update) (rate after : RateTable) :
    update.SamePast rate after ↔ ∀ instant, instant < update.date →
      valuesAt instant (after.timeline update.pair) =
        valuesAt instant (rate.timeline update.pair) := by
  refine forall₂_congr fun instant _ => ?_
  simp only [getRate_answers, selectRows_map_value]
  constructor
  · intro same
    exact same.1
  · intro same
    refine ⟨same, fun answer => ?_⟩
    rw [show (update.currencyFrom, update.currencyTo) = update.pair from rfl, same]

/-- Beside a row that starts at the date of the call, one that started earlier and
holds another value is in force there. -/
def Update.RewritesPast (rate : RateTable) (update : Update) : Prop :=
  (∃ row ∈ rate.rows, row.pair = update.pair ∧ row.validFromDate = update.date ∧
      update.date < row.validToDate) ∧
    ∃ row ∈ rate.rows, row.pair = update.pair ∧ row.validFromDate < update.date ∧
      update.date < row.validToDate ∧ row.value ≠ update.value

theorem rewritesPast_iff (rate : RateTable) (update : Update) :
    update.RewritesPast rate ↔
      (∃ period ∈ rate.timeline update.pair, period.start = update.date ∧
          update.date < period.stop) ∧
        ∃ period ∈ rate.timeline update.pair, period.start < update.date ∧
          update.date < period.stop ∧ period.value ≠ update.value :=
  and_congr
    (exists_row_iff fun period => period.start = update.date ∧ update.date < period.stop)
    (exists_row_iff fun period => period.start < update.date ∧ update.date < period.stop ∧
      period.value ≠ update.value)

section
variable {zone : TimeZone} {currency : CurrencyTable} {rate after : RateTable} {update : Update}

theorem overwrite_apply (zone : TimeZone) (currency : CurrencyTable)
    (atDate : ∃ period ∈ rate.timeline update.pair, period.start = update.date ∧
      update.date < period.stop) :
    ∃ scan after, update.apply zone currency scan rate = .ok after ∧
      after.timeline update.pair = assign update.date update.value (rate.timeline update.pair) := by
  obtain ⟨row, member, samePair, starts, reaches⟩ := (exists_row_iff _).mpr atDate
  have taken := Update.taken_preferring member samePair ⟨starts.le, reaches⟩
  have overwrites : update.Overwrites (update.taken (.preferring row) rate) := by
    rw [Update.Overwrites, taken]
    exact congrArg some starts
  have revised : revise zone.maxDate update.date update.value
      ((update.taken (.preferring row) rate).map RateRow.period) (rate.timeline update.pair) =
        assign update.date update.value (rate.timeline update.pair) := by
    rw [taken]
    exact revise_some_of_start starts
  obtain ⟨after, success⟩ := updateRate_succeeds_iff.mpr
    ⟨revised ▸ distinct_assign (rate.distinct update.pair), Or.inl overwrites⟩
  exact ⟨.preferring row, after, success, (updateRate_ok success).1.trans revised⟩

theorem rewritesPast_apply (zone : TimeZone) (currency : CurrencyTable)
    (rewrites : update.RewritesPast rate) :
    ∃ scan after, update.apply zone currency scan rate = .ok after ∧
      ¬ update.SamePast rate after := by
  obtain ⟨atDate, period, member, earlier, reaches, differs⟩ :=
    (rewritesPast_iff rate update).mp rewrites
  obtain ⟨scan, after, success, own⟩ := overwrite_apply zone currency atDate
  refine ⟨scan, after, success, fun same => ?_⟩
  rw [samePast_iff, own] at same
  exact differs (valuesAt_assign_past_iff.mp same period member ⟨earlier.le, reaches⟩ earlier)

theorem samePast_apply {scan : Scan} (kept : ¬ update.RewritesPast rate)
    (success : update.apply zone currency scan rate = .ok after) :
    update.SamePast rate after := by
  rw [rewritesPast_iff] at kept
  rw [samePast_iff, (updateRate_ok success).1]
  have picks := update.taken_picks scan rate
  by_cases overwrites :
      ((update.taken scan rate).map RateRow.period).map Period.start = some update.date
  · rw [revise, if_pos overwrites]
    refine valuesAt_assign_past_iff.mpr fun period member covers earlier => ?_
    obtain ⟨picked, found, starts⟩ := Option.map_eq_some_iff.mp overwrites
    rw [found] at picks
    by_contra differs
    exact kept ⟨⟨picked, picks.1, starts, picks.2.2⟩,
      period, member, earlier, covers.2, differs⟩
  · intro instant before
    refine valuesAt_revise_of_ne_start picks before fun period found starts => overwrites ?_
    rw [found, Option.map_some, starts]

end

/-- Whichever row its look-up takes, a successful call leaves the values in force
before its date alone, exactly when it does not overwrite across an earlier row. -/
theorem past_kept_iff (zone : TimeZone) (currency : CurrencyTable) (rate : RateTable)
    (update : Update) :
    (∀ scan after, update.apply zone currency scan rate = .ok after →
        update.SamePast rate after) ↔ ¬ update.RewritesPast rate := by
  constructor
  · intro keeps rewrites
    obtain ⟨scan, after, success, changed⟩ := rewritesPast_apply zone currency rewrites
    exact changed (keeps scan after success)
  · intro kept scan after success
    exact samePast_apply kept success

/-- After a rate as of one day and one as of five days before, another rate as of
the first day can change the five days. -/
theorem overwrite_rewrites_past :
    ¬ ∀ (zone : TimeZone) (currency : CurrencyTable) (rate after : RateTable) (update : Update)
      (scan : Scan), Reachable zone rate → update.apply zone currency scan rate = .ok after →
        update.SamePast rate after := by
  intro claim
  have rewrites : (⟨usd.id, rub.id, .finite 97 0, .onDay 9000⟩ : Update).RewritesPast
      (runCalls .utc .init backdatedCalls) :=
    ⟨⟨⟨usd.id, rub.id, .finite 96245026 6, .onDay 9000, TimeZone.utc.maxDate⟩,
        by decide, rfl, rfl, by decide⟩,
      ⟨usd.id, rub.id, .finite 95 0, .onDay 8995, TimeZone.utc.maxDate⟩,
        by decide, rfl, by decide, by decide, by decide⟩
  obtain ⟨scan, after, success, changed⟩ := rewritesPast_apply .utc .init rewrites
  exact changed (claim .utc .init _ after _ scan (reachable_runCalls .utc .init _) success)

/-! ## The same call twice -/

section
variable {zone : TimeZone} {currency : CurrencyTable} {rate after : RateTable} {update : Update}

theorem clean_apply_twice (sound : rate.Sound zone) (known : update.Known currency)
    (clean : update.Clean zone rate) (first second : Scan) :
    ∃ after, update.apply zone currency first rate = .ok after ∧
      update.apply zone currency second after = .ok after := by
  obtain ⟨below, notStraddled⟩ := (clean_iff zone rate update).mp clean
  have picks := update.taken_picks first rate
  obtain ⟨after, success⟩ := updateRate_succeeds_iff.mpr
    ⟨distinct_revise (sound update.pair) (rate.distinct update.pair) picks below notStraddled,
      Or.inr known⟩
  have own := (updateRate_ok success).1
  have picksAgain := update.taken_picks second after
  rw [own] at picksAgain
  have unchanged := (revise_revise picks below notStraddled picksAgain).2
  rw [← own] at unchanged
  obtain ⟨again, repeated⟩ := updateRate_succeeds_iff.mpr
    ⟨unchanged.symm ▸ after.distinct update.pair, Or.inr known⟩
  refine ⟨after, success, ?_⟩
  obtain ⟨ownAgain, othersAgain⟩ := updateRate_ok repeated
  have same : again = after := by
    refine RateTable.ext_timelines fun pair => ?_
    by_cases samePair : pair = update.pair
    · rw [samePair, ownAgain, unchanged]
    · exact othersAgain pair samePair
  rw [← same] at repeated ⊢
  exact repeated

theorem late_apply_twice (sound : rate.Sound zone) (late : zone.maxDate ≤ update.date)
    {first second : Scan} (success : update.apply zone currency first rate = .ok after) :
    update.apply zone currency second after ≠ .ok after := by
  -- at or past `max_date()` a look-up finds nothing, and the row that is inserted has the ends
  -- of the one inserted before
  intro repeated
  have own := (updateRate_ok repeated).1
  have nothing := update.taken_none_of_late (sound_apply sound success) late second
  rw [nothing, revise_none] at own
  exact cons_cut_ne own.symm

/-- Where a row that starts at the date is in force beside an earlier one, the
first call can be an overwrite and the second one not. -/
theorem straddled_apply_twice
    (straddled : Straddled update.date (rate.timeline update.pair)) :
    ∃ first second after, update.apply zone currency first rate = .ok after ∧
      update.apply zone currency second after ≠ .ok after := by
  obtain ⟨⟨period, member, covers, starts⟩, old, oldMember, oldCovers, earlier⟩ := straddled
  obtain ⟨first, after, success, own⟩ :=
    overwrite_apply zone currency ⟨period, member, starts, covers.2⟩
  have kept : ∃ other ∈ after.timeline update.pair,
      other.start < update.date ∧ other.Covers update.date := by
    rw [own]
    exact ⟨old.assign update.date update.value, mem_assign.mpr ⟨old, oldMember, rfl⟩,
      by simpa using earlier, by simpa using oldCovers⟩
  obtain ⟨row, rowMember, samePair, rowEarlier, rowCovers⟩ := (exists_row_iff _).mpr kept
  have taken := Update.taken_preferring rowMember samePair rowCovers
  refine ⟨first, .preferring row, after, success, fun repeated => ?_⟩
  have again := (updateRate_ok repeated).1
  rw [taken, Option.map_some, revise_some_of_ne rowEarlier.ne] at again
  exact cons_cut_ne again.symm

end

/-- A call with known currencies succeeds, and so does its repeat without changing
anything, whichever rows the two look-ups take, exactly when the call is clean. -/
theorem retry_safe_iff (zone : TimeZone) (currency : CurrencyTable) (rate : RateTable)
    (update : Update) (reachable : Reachable zone rate) (known : update.Known currency) :
    (∀ first second : Scan, ∃ after, update.apply zone currency first rate = .ok after ∧
        update.apply zone currency second after = .ok after) ↔ update.Clean zone rate := by
  constructor
  · intro safe
    rw [clean_iff]
    constructor
    · by_contra late
      obtain ⟨after, success, repeated⟩ := safe .any .any
      exact late_apply_twice reachable.sound (not_lt.mp late) success repeated
    · intro straddled
      obtain ⟨first, second, after, success, changed⟩ := straddled_apply_twice straddled
      obtain ⟨other, otherSuccess, repeated⟩ := safe first second
      have same : other = after := Except.ok.inj (otherSuccess.symm.trans success)
      exact changed (same ▸ repeated)
  · intro clean first second
    exact clean_apply_twice reachable.sound known clean first second

theorem retry_laterRate :
    Reachable .utc overlappingTable ∧ laterRate.Known .init ∧
      ∀ first second : Scan, ∃ after,
        laterRate.apply .utc .init first overlappingTable = .ok after ∧
          laterRate.apply .utc .init second after = .ok after := by
  have known : laterRate.Known .init := by decide
  have clean : laterRate.Clean .utc overlappingTable := by decide
  exact ⟨overlappingTable_reachable, known, (retry_safe_iff .utc .init overlappingTable laterRate
    overlappingTable_reachable known).mpr clean⟩

/-- A call dated `infinity` cannot be repeated. -/
theorem infinite_date_not_retry_safe :
    ¬ ∀ (zone : TimeZone) (currency : CurrencyTable) (rate : RateTable) (update : Update),
      Reachable zone rate → update.Known currency →
        ∀ first second : Scan, ∃ after, update.apply zone currency first rate = .ok after ∧
          update.apply zone currency second after = .ok after := by
  intro claim
  have late : TimeZone.utc.maxDate ≤
      (⟨usd.id, rub.id, .finite 1 0, .infinity⟩ : Update).date := by decide
  obtain ⟨after, success, repeated⟩ := claim .utc .init .empty
    ⟨usd.id, rub.id, .finite 1 0, .infinity⟩ ⟨[], rfl⟩ (by decide) .any .any
  exact late_apply_twice (sound_empty .utc) late success repeated

end ApostolRates
