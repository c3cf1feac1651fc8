import ApostolRates.History

/-!
# Coverage and effect of a call

A date once covered stays covered up to `max_date()`, whatever is called later and
whichever rows the look-ups take; and a call is what `get_rate` returns from its
date up to the next start.  Both rest on the same links between the periods.
-/

set_option autoImplicit false

namespace ApostolRates

open ThreeValued ValidTime Rollback

/-! ## Coverage over a history -/

def Update.Covered (zone : TimeZone) (rate : RateTable) (update : Update) : Prop :=
  ∀ instant, update.date ≤ instant → instant < zone.maxDate →
    ∃ period ∈ rate.timeline update.pair, period.Covers instant

section
variable {zone : TimeZone} {currency : CurrencyTable} {scan : Scan} {rate after : RateTable}
variable {update : Update}

theorem covered_apply (sound : rate.Sound zone)
    (success : update.apply zone currency scan rate = .ok after) : update.Covered zone after := by
  intro instant notBefore below
  have picks := update.taken_picks scan rate
  rw [(updateRate_ok success).1]
  exact (sound_revise (sound update.pair) picks).covered_from
    (revise_covers_date picks (lt_of_le_of_lt notBefore below)) notBefore below

theorem covered_kept {earlier : Update} (sound : rate.Sound zone)
    (success : update.apply zone currency scan rate = .ok after)
    (covered : earlier.Covered zone rate) : earlier.Covered zone after := by
  intro instant notBefore below
  obtain ⟨own, others⟩ := updateRate_ok success
  have before := covered instant notBefore below
  by_cases same : earlier.pair = update.pair
  · rw [same] at before ⊢
    rw [own]
    exact (sound update.pair).revise_keeps_covered (update.taken_picks scan rate) before
  · rw [others earlier.pair same]
    exact before

end

def Attempt.Lasting (zone : TimeZone) (attempt : Attempt) (rate : RateTable) : Prop :=
  ∃ update : Update, attempt.currencyFrom = some update.currencyFrom ∧
    attempt.currencyTo = some update.currencyTo ∧ attempt.date = some update.date ∧
    update.Covered zone rate

theorem lasting_history (zone : TimeZone) (attempts : List Attempt) (attempt : Attempt)
    (succeeded : Succeeded (Attempt.step zone) .empty attempts attempt) :
    attempt.Lasting zone (history zone attempts) := by
  refine succeeded_invariant (Attempt.step zone) .empty (RateTable.Sound zone)
    (Attempt.Lasting zone) sound_step ?_ ?_ (sound_empty zone) attempts attempt succeeded
  · intro before act after sound success
    obtain ⟨update, hasFrom, hasTo, _, hasDate, applied⟩ := updateRate_ok_nonNull success
    exact ⟨update, hasFrom, hasTo, hasDate, covered_apply sound applied⟩
  · intro before act after marked sound success lasting
    obtain ⟨update, _, _, _, _, applied⟩ := updateRate_ok_nonNull success
    obtain ⟨earlier, hasFrom, hasTo, hasDate, covered⟩ := lasting
    exact ⟨earlier, hasFrom, hasTo, hasDate, covered_kept sound applied covered⟩

/-- Once a call has succeeded, some row matches at every instant from its date up
to `max_date()`, in every later state. -/
theorem coverage_never_lost (zone : TimeZone) (attempts : List Attempt) (attempt : Attempt)
    (date instant : Timestamptz)
    (succeeded : Succeeded (Attempt.step zone) .empty attempts attempt)
    (dated : attempt.date = some date) (notBefore : date ≤ instant)
    (below : instant < zone.maxDate) :
    (∃ row ∈ (history zone attempts).rows,
        Holds (row.inForce attempt.currencyFrom attempt.currencyTo (some instant))) ∧
      ∀ scan, getRate scan (history zone attempts) attempt.currencyFrom attempt.currencyTo
        (some instant) ≠ none := by
  obtain ⟨update, hasFrom, hasTo, hasDate, covered⟩ :=
    lasting_history zone attempts attempt succeeded
  have sameDate : date = update.date := Option.some.inj (dated.symm.trans hasDate)
  have matched : selectRows (history zone attempts).rows attempt.currencyFrom attempt.currencyTo
      (some instant) ≠ 0 := by
    rw [hasFrom, hasTo]
    exact (selectRows_ne_zero_iff _ _ _ _).mpr (covered instant (sameDate ▸ notBefore) below)
  refine ⟨?_, fun scan => (getRate_ne_none_iff scan _ _ _ _).mpr matched⟩
  obtain ⟨row, member⟩ := Multiset.exists_mem_of_ne_zero matched
  exact ⟨row, Multiset.mem_filter.mp member⟩

/-- The second call ends the period of the first, the third lays another across both. -/
def cutCalls (scan : Scan) : List Call :=
  [⟨firstRate, scan⟩, ⟨laterRate, scan⟩, ⟨⟨usd.id, rub.id, .finite 95 0, .onDay 8995⟩, scan⟩]

theorem coverage_of_firstRate :
    Succeeded (Attempt.step .utc) .empty ((cutCalls .any).map (Call.attempt .init))
        (Call.attempt .init ⟨firstRate, .any⟩) ∧
      Timestamptz.onDay 9000 ≤ .onDay 9500 ∧ Timestamptz.onDay 9500 < TimeZone.utc.maxDate ∧
      (∃ row ∈ (history .utc ((cutCalls .any).map (Call.attempt .init))).rows,
        Holds (row.inForce (some usd.id) (some rub.id) (some (.onDay 9500)))) ∧
      ∀ scan, getRate scan (history .utc ((cutCalls .any).map (Call.attempt .init))) (some usd.id)
        (some rub.id) (some (.onDay 9500)) ≠ none := by
  have succeeded : Succeeded (Attempt.step .utc) .empty ((cutCalls .any).map (Call.attempt .init))
      (Call.attempt .init ⟨firstRate, .any⟩) := ⟨[], _, firstTable, rfl, firstRate_apply .any⟩
  exact ⟨succeeded, by decide, by decide,
    coverage_never_lost .utc _ _ (.onDay 9000) (.onDay 9500) succeeded rfl (by decide)
      (by decide)⟩

/-! ## The effect of one call -/

/-- The smallest `validFromDate` of the pair after the date of the call, or
`max_date()` when that is smaller or no row starts later. -/
def RateTable.nextChange (zone : TimeZone) (rate : RateTable) (update : Update) : Timestamptz :=
  ((rate.rows.filter fun row => row.pair = update.pair ∧ update.date < row.validFromDate).map
    RateRow.validFromDate).fold min zone.maxDate

theorem nextChange_eq (zone : TimeZone) (rate : RateTable) (update : Update) :
    rate.nextChange zone update =
      nextStart zone.maxDate update.date (rate.timeline update.pair) := by
  unfold RateTable.nextChange nextStart RateTable.timeline timelineOf pairRows
  rw [Multiset.map_map, Multiset.filter_map, Multiset.filter_filter]
  congr 2
  exact Multiset.filter_congr fun row _ => and_comm

/-- From its date up to the next change a successful call is in force, and nothing
else of its pair is; the rows of the other pairs are as before. -/
theorem update_takes_effect (zone : TimeZone) (currency : CurrencyTable) (scan : Scan)
    (rate after : RateTable) (update : Update) (reachable : Reachable zone rate)
    (below : update.date < zone.maxDate)
    (success : update.apply zone currency scan rate = .ok after) :
    (∀ instant, update.date ≤ instant → instant < rate.nextChange zone update →
      selectRows after.rows (some update.currencyFrom) (some update.currencyTo)
          (some instant) ≠ 0 ∧
        (∀ row ∈ selectRows after.rows (some update.currencyFrom) (some update.currencyTo)
          (some instant), row.value = update.value) ∧
        ∀ look, getRate look after (some update.currencyFrom) (some update.currencyTo)
          (some instant) = some update.value) ∧
      ∀ pair, pair ≠ update.pair → pairRows after.rows pair = pairRows rate.rows pair := by
  obtain ⟨own, others⟩ := updateRate_ok success
  constructor
  · intro instant notBefore beforeNext
    rw [nextChange_eq] at beforeNext
    have effect := (reachable.sound update.pair).revise_effect update.value
      (update.taken_picks scan rate) below notBefore beforeNext
    rw [← own] at effect
    have matched := (selectRows_ne_zero_iff after update.currencyFrom update.currencyTo instant).mpr
      effect.1
    have values : ∀ row ∈ selectRows after.rows (some update.currencyFrom)
        (some update.currencyTo) (some instant), row.value = update.value := by
      intro row member
      obtain ⟨rowMember, samePair, covers⟩ := mem_selectRows.mp member
      exact effect.2 row.period (mem_timelineOf.mpr ⟨row, rowMember, samePair, rfl⟩) covers
    exact ⟨matched, values, fun look => getRate_of_values matched values⟩
  · intro pair differs
    rw [pairRows_eq, pairRows_eq]
    exact congrArg _ (others pair differs)

theorem laterRate_takes_effect :
    Reachable .utc overlappingTable ∧ laterRate.date < TimeZone.utc.maxDate ∧
      laterRate.apply .utc .init .any overlappingTable = .ok laterTable ∧
      Timestamptz.onDay 9007 < overlappingTable.nextChange .utc laterRate ∧
      ∀ look, getRate look laterTable (some usd.id) (some rub.id) (some (.onDay 9007)) =
        some (.finite 97 0) := by
  have below : laterRate.date < TimeZone.utc.maxDate := by decide
  have before : Timestamptz.onDay 9007 < overlappingTable.nextChange .utc laterRate := by decide
  have effect := (update_takes_effect .utc .init .any overlappingTable laterTable laterRate
    overlappingTable_reachable below (laterRate_apply .any)).1 (.onDay 9007) (by decide) before
  exact ⟨overlappingTable_reachable, below, laterRate_apply .any, before, effect.2.2⟩

end ApostolRates
