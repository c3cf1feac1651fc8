import ApostolRates.History

/-!
# Overlapping and empty periods

A history keeps the periods of every pair apart exactly as long as no call is
dated before the periods it meets: such a call finds no covering row and opens a
period that runs to `max_date()` across the later ones.  Out of overlapping
periods a call can make empty ones, as can a call dated at or past `max_date()`.
-/

set_option autoImplicit false

namespace ApostolRates

open ThreeValued ValidTime Rollback

/-! ## The view and the scalar routine -/

/-- The view restricted to the present: `validFromDate <= now()` and `validToDate > now()`. -/
def currentRates (currency : CurrencyTable) (rate : RateTable) (now : Timestamptz) :
    Multiset RatesRow :=
  (rates currency rate).filter fun row =>
    Holds (both (atMost (some row.validFromDate) (some now))
      (above (some row.validToDate) (some now)))

def RatesRow.rateRow (row : RatesRow) : RateRow :=
  ⟨row.currencyFrom, row.currencyTo, row.value, row.validFromDate, row.validToDate⟩

/-- The view restricted to a pair and to an instant in place of the present. -/
def ratesInForce (currency : CurrencyTable) (rate : RateTable) (currencyFrom currencyTo : Uuid)
    (instant : Timestamptz) : Multiset RatesRow :=
  (currentRates currency rate instant).filter fun row =>
    row.rateRow.pair = (currencyFrom, currencyTo)

theorem filter_id_eq_singleton (currency : CurrencyTable) {id : Uuid}
    (references : currency.References id) :
    ∃ row, currency.rows.filter (fun other => other.id = id) = [row] := by
  obtain ⟨row, member, rfl⟩ := List.mem_map.mp references
  refine ⟨row, ?_⟩
  have once : currency.rows.count row = 1 :=
    List.count_eq_one_of_mem (List.Nodup.of_map _ currency.idUnique) member
  rw [← List.replicate_one, ← once, ← List.filter_eq row]
  refine List.filter_congr fun other otherMember => ?_
  have same : other.id = row.id ↔ row = other := by
    constructor
    · intro ids
      exact (List.inj_on_of_nodup_map currency.idUnique otherMember member ids).symm
    · rintro rfl
      rfl
  simp only [same, decide_eq_decide]
  exact eq_comm

theorem rates_map_rateRow (currency : CurrencyTable) (rate : RateTable)
    (references : rate.References currency) :
    (rates currency rate).map RatesRow.rateRow = rate.rows := by
  unfold rates
  rw [Multiset.map_bind]
  conv_rhs => rw [← Multiset.map_id' rate.rows, ← Multiset.bind_singleton]
  refine Multiset.bind_congr fun row member => ?_
  obtain ⟨c1, first⟩ := filter_id_eq_singleton currency (references row member).1
  obtain ⟨c2, second⟩ := filter_id_eq_singleton currency (references row member).2
  rw [first, second]
  rfl

theorem ratesInForce_map_rateRow (currency : CurrencyTable) (rate : RateTable)
    (references : rate.References currency) (currencyFrom currencyTo : Uuid)
    (instant : Timestamptz) :
    (ratesInForce currency rate currencyFrom currencyTo instant).map RatesRow.rateRow =
      selectRows rate.rows (some currencyFrom) (some currencyTo) (some instant) := by
  unfold selectRows ratesInForce currentRates
  conv_rhs => rw [← rates_map_rateRow currency rate references, Multiset.filter_map]
  rw [Multiset.filter_filter]
  congr 1
  refine Multiset.filter_congr fun row _ => ?_
  rw [Function.comp_apply, RateRow.inForce_iff]
  simp [RatesRow.rateRow, RateRow.period, Period.Covers]

/-- At most one row of any pair is in force at any instant, and `get_rate` returns
the value that the view filtered to the pair and the instant shows. -/
def SingleAnswer (currency : CurrencyTable) (rate : RateTable) : Prop :=
  ∀ currencyFrom currencyTo instant,
    (selectRows rate.rows (some currencyFrom) (some currencyTo) (some instant)).card ≤ 1 ∧
      ∀ scan, ((getRate scan rate (some currencyFrom) (some currencyTo) (some instant)).toList :
          Multiset Numeric) =
        (ratesInForce currency rate currencyFrom currencyTo instant).map RatesRow.value

def NoOverlap (rate : RateTable) : Prop := ∀ pair, AtMostOne (rate.timeline pair)

theorem singleAnswer_iff {currency : CurrencyTable} {rate : RateTable}
    (references : rate.References currency) : SingleAnswer currency rate ↔ NoOverlap rate := by
  constructor
  · intro single pair instant
    rw [← card_selectRows rate pair.1 pair.2 instant]
    exact (single pair.1 pair.2 instant).1
  · intro apart currencyFrom currencyTo instant
    have single : (selectRows rate.rows (some currencyFrom) (some currencyTo)
        (some instant)).card ≤ 1 := by
      rw [card_selectRows]
      exact apart _ instant
    refine ⟨single, fun scan => ?_⟩
    rw [← getRate_of_card_le_one scan single, ← ratesInForce_map_rateRow currency rate references,
      Multiset.map_map]
    rfl

/-! ## Which calls keep the periods apart -/

/-- Some row of the pair is in force at the date of the call, or no period of the
pair starts after it. -/
def Update.NotBackdated (update : Update) (rate : RateTable) : Prop :=
  (∃ row ∈ rate.rows, row.pair = update.pair ∧ row.validFromDate ≤ update.date ∧
      update.date < row.validToDate) ∨
    ∀ row ∈ rate.rows, row.pair = update.pair → row.validFromDate < row.validToDate →
      row.validFromDate ≤ update.date

theorem notBackdated_iff (update : Update) (rate : RateTable) :
    update.NotBackdated rate ↔
      (∃ period ∈ rate.timeline update.pair, period.Covers update.date) ∨
        ∀ period ∈ rate.timeline update.pair, period.Proper → period.start ≤ update.date :=
  or_congr (exists_row_iff fun period => period.Covers update.date)
    (forall_row_iff fun period => period.Proper → period.start ≤ update.date)

section
variable {zone : TimeZone} {currency : CurrencyTable} {scan : Scan} {rate after : RateTable}
variable {update : Update}

theorem noOverlap_apply_iff (sound : rate.Sound zone) (apart : NoOverlap rate)
    (success : update.apply zone currency scan rate = .ok after) :
    NoOverlap after ↔ update.NotBackdated rate := by
  rw [notBackdated_iff, ← atMostOne_revise_iff (sound update.pair)
    (update.taken_picks scan rate) (apart update.pair)]
  constructor
  · intro afterApart
    rw [← (updateRate_ok success).1]
    exact afterApart update.pair
  · intro revisedApart
    exact forall_timeline_apply success apart revisedApart

theorem backdated_succeeds (sound : rate.Sound zone) (references : rate.References currency)
    (backdated : ¬ update.NotBackdated rate) :
    ∃ after, update.apply zone currency scan rate = .ok after := by
  -- a call that meets neither condition is not stopped by an error: nothing is in force at its
  -- date, so that no row has the ends of the new one, and the rows of the pair show that both
  -- currencies exist
  rw [notBackdated_iff, not_or] at backdated
  obtain ⟨uncovered, late⟩ := backdated
  push Not at uncovered late
  obtain ⟨period, member, proper, afterDate⟩ := late
  have below : update.date < zone.maxDate :=
    (afterDate.trans proper).trans_le ((sound update.pair).bounded period member)
  have clean : ¬ Straddled update.date (rate.timeline update.pair) := by
    rintro ⟨⟨other, otherMember, covers, _⟩, _⟩
    exact uncovered other otherMember covers
  refine updateRate_succeeds_iff.mpr ⟨distinct_revise (sound update.pair)
    (rate.distinct update.pair) (update.taken_picks scan rate) below clean, Or.inr ?_⟩
  obtain ⟨row, rowMember, samePair, _⟩ := mem_timelineOf.mp member
  obtain ⟨sameFrom, sameTo⟩ := Prod.mk.injEq .. ▸ samePair
  have known := references row rowMember
  rw [sameFrom, sameTo] at known
  exact known

theorem noOverlap_settle_iff (sound : rate.Sound zone) (references : rate.References currency)
    (apart : NoOverlap rate) (call : Call) :
    NoOverlap (settle (Call.step zone currency) rate call) ↔ call.update.NotBackdated rate := by
  cases outcome : Call.step zone currency rate call with
  | ok after =>
      rw [settle_ok _ _ _ after outcome]
      exact noOverlap_apply_iff sound apart outcome
  | error failure =>
      have kept : settle (Call.step zone currency) rate call = rate := by simp [settle, outcome]
      rw [kept]
      refine ⟨fun _ => ?_, fun _ => apart⟩
      by_contra backdated
      have succeeds : ∃ after, call.update.apply zone currency call.scan rate = .ok after :=
        backdated_succeeds sound references backdated
      obtain ⟨after, success⟩ := succeeds
      rw [Call.step, success] at outcome
      cases outcome

end

/-- The periods stay apart in every state of a history exactly when every call of
it finds a row in force at its date or nothing that starts later. -/
theorem periods_apart_iff (zone : TimeZone) (currency : CurrencyTable) (calls : List Call) :
    (∀ reached, reached <+: calls → SingleAnswer currency (runCalls zone currency reached)) ↔
      ∀ earlier call, earlier ++ [call] <+: calls →
        call.update.NotBackdated (runCalls zone currency earlier) := by
  have answers : (∀ reached, reached <+: calls →
      SingleAnswer currency (runCalls zone currency reached)) ↔
        ∀ reached, reached <+: calls → NoOverlap (runCalls zone currency reached) :=
    forall₂_congr fun reached _ =>
      singleAnswer_iff (references_runCalls zone currency reached)
  rw [answers]
  refine run_always_iff (Call.step zone currency) .empty
    (fun rate => rate.Sound zone ∧ rate.References currency) NoOverlap
    (fun rate call => call.update.NotBackdated rate) ?_ ?_ ?_ ?_ calls
  · intro before call after inv success
    exact ⟨sound_apply inv.1 success, references_apply inv.2 success⟩
  · intro before call inv apart
    exact noOverlap_settle_iff inv.1 inv.2 apart call
  · exact ⟨sound_empty zone, fun _ member => absurd member (Multiset.notMem_zero _)⟩
  · exact fun _ => atMostOne_zero

/-- USD to RUB first as of one day, then as of five days before. -/
noncomputable def backdatedCalls : List Call :=
  [⟨⟨usd.id, rub.id, .finite 96245026 6, .onDay 9000⟩, .any⟩,
    ⟨⟨usd.id, rub.id, .finite 95 0, .onDay 8995⟩, .any⟩]

theorem backdated_call_overlaps :
    ¬ ∀ (zone : TimeZone) (currency : CurrencyTable) (calls reached : List Call),
      reached <+: calls → SingleAnswer currency (runCalls zone currency reached) := by
  intro claim
  have single := (claim .utc .init backdatedCalls backdatedCalls (List.prefix_refl _) usd.id rub.id
    (.onDay 9001)).1
  revert single
  decide

/-! ## Which calls keep every row readable -/

/-- Every row is non-empty and is among the rows that are read at its own start. -/
def AllReadable (rate : RateTable) : Prop :=
  ∀ row ∈ rate.rows, row.validFromDate < row.validToDate ∧
    row ∈ selectRows rate.rows (some row.currencyFrom) (some row.currencyTo)
      (some row.validFromDate)

theorem allReadable_iff (rate : RateTable) :
    AllReadable rate ↔ ∀ pair, AllProper (rate.timeline pair) := by
  constructor
  · intro readable pair period member
    obtain ⟨row, rowMember, _, rfl⟩ := mem_timelineOf.mp member
    exact (readable row rowMember).1
  · intro proper row member
    have rowProper : row.period.Proper :=
      proper row.pair row.period (mem_timelineOf.mpr ⟨row, member, rfl, rfl⟩)
    exact ⟨rowProper, mem_selectRows.mpr ⟨member, rfl, rowProper.covers_start⟩⟩

/-- The call is dated below `max_date()`, and the rows of its pair in force at its
date do not mix some that start there with some that started earlier. -/
def Update.Clean (zone : TimeZone) (rate : RateTable) (update : Update) : Prop :=
  update.date < zone.maxDate ∧
    ¬ ((∃ row ∈ rate.rows, row.pair = update.pair ∧ row.validFromDate = update.date ∧
          update.date < row.validToDate) ∧
        ∃ row ∈ rate.rows, row.pair = update.pair ∧ row.validFromDate < update.date ∧
          update.date < row.validToDate)

instance (zone : TimeZone) (rate : RateTable) (update : Update) :
    Decidable (update.Clean zone rate) :=
  @instDecidableAnd _ _ inferInstance (@instDecidableNot _ (@instDecidableAnd _ _
    Multiset.decidableExistsMultiset Multiset.decidableExistsMultiset))

theorem clean_iff (zone : TimeZone) (rate : RateTable) (update : Update) :
    update.Clean zone rate ↔
      update.date < zone.maxDate ∧ ¬ Straddled update.date (rate.timeline update.pair) := by
  have atDate := @exists_row_iff rate update.pair fun period =>
    period.start = update.date ∧ update.date < period.stop
  have earlier := @exists_row_iff rate update.pair fun period =>
    period.start < update.date ∧ update.date < period.stop
  refine and_congr_right fun _ => not_congr (and_congr (atDate.trans ?_) (earlier.trans ?_))
  · refine exists_congr fun period => and_congr_right fun _ => ?_
    exact ⟨fun holds => ⟨⟨holds.1.le, holds.2⟩, holds.1⟩, fun holds => ⟨holds.2, holds.1.2⟩⟩
  · refine exists_congr fun period => and_congr_right fun _ => ?_
    exact ⟨fun holds => ⟨⟨holds.1.le, holds.2⟩, holds.1⟩, fun holds => ⟨holds.2, holds.1.2⟩⟩

section
variable {zone : TimeZone} {currency : CurrencyTable} {rate after : RateTable} {update : Update}

theorem readable_apply {scan : Scan} (readable : AllReadable rate)
    (clean : update.Clean zone rate)
    (success : update.apply zone currency scan rate = .ok after) : AllReadable after := by
  rw [allReadable_iff] at readable ⊢
  obtain ⟨below, notStraddled⟩ := (clean_iff zone rate update).mp clean
  exact forall_timeline_apply success readable
    (allProper_revise (readable update.pair) (update.taken_picks scan rate) below notStraddled)

theorem readable_settle {call : Call} (readable : AllReadable rate)
    (clean : call.update.Clean zone rate) :
    AllReadable (settle (Call.step zone currency) rate call) := by
  cases outcome : Call.step zone currency rate call with
  | ok after =>
      rw [settle_ok _ _ _ after outcome]
      exact readable_apply readable clean outcome
  | error failure => simpa [settle, outcome] using readable

theorem Update.uncovered_of_late (update : Update) (sound : rate.Sound zone)
    (late : zone.maxDate ≤ update.date) :
    ∀ period ∈ rate.timeline update.pair, ¬ period.Covers update.date := by
  intro period member covers
  have bounded := (sound update.pair).bounded period member
  exact absurd (covers.2.trans_le (bounded.trans late)) (lt_irrefl _)

theorem Update.taken_none_of_late (update : Update) (sound : rate.Sound zone)
    (late : zone.maxDate ≤ update.date) (scan : Scan) :
    (update.taken scan rate).map RateRow.period = none := by
  cases taken : (update.taken scan rate).map RateRow.period with
  | none => rfl
  | some period =>
      have picks := update.taken_picks scan rate
      rw [taken] at picks
      exact absurd picks.2 (update.uncovered_of_late sound late period picks.1)

theorem unreadable_apply_of_late (sound : rate.Sound zone) (readable : AllReadable rate)
    (known : update.Known currency) (late : zone.maxDate ≤ update.date) (scan : Scan) :
    ∃ after, update.apply zone currency scan rate = .ok after ∧ ¬ AllReadable after := by
  -- at or past `max_date()` nothing is in force, and the row that is inserted ends no later
  -- than it starts
  have uncovered := update.uncovered_of_late sound late
  have nothing := update.taken_none_of_late sound late scan
  have proper := (allReadable_iff rate).mp readable update.pair
  have distinct : Distinct (revise zone.maxDate update.date update.value
      ((update.taken scan rate).map RateRow.period) (rate.timeline update.pair)) := by
    rw [nothing, revise_none, cut_of_uncovered uncovered]
    refine distinct_cons_iff.mpr ⟨?_, rate.distinct update.pair⟩
    intro other member same
    obtain ⟨starts, stops⟩ := Prod.mk.injEq .. ▸ same
    have backwards : other.stop ≤ other.start := by
      rw [starts, stops]
      exact late
    exact absurd (proper other member) (not_lt.mpr backwards)
  obtain ⟨after, success⟩ := updateRate_succeeds_iff.mpr ⟨distinct, Or.inr known⟩
  refine ⟨after, success, fun afterReadable => ?_⟩
  have own := (updateRate_ok success).1
  rw [nothing, revise_none] at own
  have added : (⟨update.date, zone.maxDate, update.value⟩ : Period Timestamptz Numeric) ∈
      after.timeline update.pair := own ▸ Multiset.mem_cons_self _ _
  have shown := (allReadable_iff after).mp afterReadable update.pair _ added
  exact absurd shown (not_lt.mpr late)

/-- When a row that starts at the date and one that started earlier are both in
force, a look-up that takes the earlier one cuts the other down to nothing. -/
theorem unreadable_apply_of_straddled (sound : rate.Sound zone) (readable : AllReadable rate)
    (known : update.Known currency)
    (straddled : Straddled update.date (rate.timeline update.pair)) :
    ∃ scan after, update.apply zone currency scan rate = .ok after ∧ ¬ AllReadable after := by
  obtain ⟨atDate, period, member, covers, earlier⟩ := straddled
  obtain ⟨row, rowMember, samePair, rfl⟩ := mem_timelineOf.mp member
  have taken := Update.taken_preferring rowMember samePair covers
  have split : ∀ value : Numeric, revise zone.maxDate update.date value
      ((update.taken (.preferring row) rate).map RateRow.period) (rate.timeline update.pair) =
        ⟨update.date, row.period.stop, value⟩ ::ₘ cut update.date (rate.timeline update.pair) := by
    intro value
    rw [taken]
    exact revise_some_of_ne earlier.ne
  have proper := (allReadable_iff rate).mp readable update.pair
  have distinct : Distinct (revise zone.maxDate update.date update.value
      ((update.taken (.preferring row) rate).map RateRow.period) (rate.timeline update.pair)) := by
    rw [split]
    refine distinct_split covers.2 (distinct_cut (sound update.pair) (rate.distinct update.pair) ?_)
    intro _ _ _ other otherMember _
    exact proper other otherMember
  obtain ⟨after, success⟩ := updateRate_succeeds_iff.mpr ⟨distinct, Or.inr known⟩
  refine ⟨.preferring row, after, success, fun afterReadable => ?_⟩
  have shown := (allReadable_iff after).mp afterReadable update.pair
  rw [(updateRate_ok success).1, split] at shown
  exact not_allProper_split atDate shown

theorem readable_settle_iff (sound : rate.Sound zone) (readable : AllReadable rate)
    (known : update.Known currency) :
    (∀ call : Call, call.update = update →
        AllReadable (settle (Call.step zone currency) rate call)) ↔ update.Clean zone rate := by
  constructor
  · intro keeps
    rw [clean_iff]
    refine ⟨?_, ?_⟩
    · by_contra late
      obtain ⟨after, success, unreadable⟩ :=
        unreadable_apply_of_late sound readable known (not_lt.mp late) .any
      have kept := keeps ⟨update, .any⟩ rfl
      rw [Call.settle_ok ⟨update, .any⟩ success] at kept
      exact unreadable kept
    · intro straddled
      obtain ⟨scan, after, success, unreadable⟩ :=
        unreadable_apply_of_straddled sound readable known straddled
      have kept := keeps ⟨update, scan⟩ rfl
      rw [Call.settle_ok ⟨update, scan⟩ success] at kept
      exact unreadable kept
  · rintro clean call rfl
    exact readable_settle readable clean

end

def StaysReadable (zone : TimeZone) (currency : CurrencyTable) (calls : List Call) : Prop :=
  ∀ reached, reached <+: calls → AllReadable (runCalls zone currency reached)

/-- Every call of the run is clean in the state it is made in. -/
def StaysClean (zone : TimeZone) (currency : CurrencyTable) (calls : List Call) : Prop :=
  ∀ earlier call, earlier ++ [call] <+: calls →
    call.update.Clean zone (runCalls zone currency earlier)

theorem allReadable_empty : AllReadable .empty := fun row member =>
  absurd member (Multiset.notMem_zero row)

theorem StaysClean.readable {zone : TimeZone} {currency : CurrencyTable} {calls : List Call}
    (clean : StaysClean zone currency calls) : StaysReadable zone currency calls :=
  run_always (Call.step zone currency) .empty (fun _ => True) AllReadable
    (fun rate call => call.update.Clean zone rate) (fun _ _ _ _ _ => trivial)
    (fun _ _ _ readable clean => readable_settle readable clean) trivial allReadable_empty calls
    clean

theorem StaysClean.concat {zone : TimeZone} {currency : CurrencyTable} {calls : List Call}
    {update : Update} (scan : Scan) (clean : StaysClean zone currency calls)
    (last : update.Clean zone (runCalls zone currency calls)) :
    StaysClean zone currency (calls ++ [⟨update, scan⟩]) := by
  intro earlier other isPrefix
  rcases List.prefix_concat_iff.mp isPrefix with whole | before
  · obtain ⟨rfl, rfl⟩ := List.append_singleton_inj.mp whole
    exact last
  · exact clean earlier other before

/-- A run of clean calls keeps every row readable.  Calls with known currencies keep
it so whichever rows their look-ups take exactly when all their runs are clean. -/
theorem periods_readable_iff (zone : TimeZone) (currency : CurrencyTable) (updates : List Update)
    (known : ∀ update ∈ updates, update.Known currency) :
    (∀ calls : List Call, calls.map Call.update = updates →
        StaysClean zone currency calls → StaysReadable zone currency calls) ∧
      ((∀ calls : List Call, calls.map Call.update = updates →
          StaysReadable zone currency calls) ↔
        ∀ calls : List Call, calls.map Call.update = updates →
          StaysClean zone currency calls) := by
  refine ⟨fun _ _ clean => clean.readable, ?_⟩
  refine runs_always_iff (Call.step zone currency) .empty Call.update (RateTable.Sound zone)
    AllReadable (Update.Known currency) (fun rate update => update.Clean zone rate) ?_ ?_
    (sound_empty zone) allReadable_empty updates known
  · intro before call after sound success
    exact sound_apply sound success
  · intro before update isKnown sound readable
    exact readable_settle_iff sound readable isKnown

/-- Four calls, the last dated between the others. -/
def fourUpdates : List Update :=
  [⟨usd.id, rub.id, .finite 98 0, .onDay 9010⟩, firstRate,
    ⟨usd.id, rub.id, .finite 95 0, .onDay 8995⟩, laterRate]

theorem staysClean_fourUpdates {calls : List Call} (given : calls.map Call.update = fourUpdates) :
    StaysClean .utc .init calls := by
  obtain ⟨⟨_, first⟩, _, rfl, rfl, afterFirst⟩ := List.map_eq_cons_iff.mp given
  obtain ⟨⟨_, second⟩, _, rfl, rfl, afterSecond⟩ := List.map_eq_cons_iff.mp afterFirst
  obtain ⟨⟨_, third⟩, _, rfl, rfl, afterThird⟩ := List.map_eq_cons_iff.mp afterSecond
  obtain ⟨⟨_, fourth⟩, _, rfl, rfl, nothing⟩ := List.map_eq_cons_iff.mp afterThird
  obtain rfl := List.map_eq_nil_iff.mp nothing
  obtain ⟨one, two, three⟩ := overlappingCalls_run first second third
  have none : StaysClean .utc .init [] := fun _ _ isPrefix =>
    absurd (List.prefix_nil.mp isPrefix) (by simp)
  have empty : runCalls .utc .init [] = .empty := rfl
  refine (((none.concat first (empty ▸ ?_)).concat second (one ▸ ?_)).concat third
    (two ▸ ?_)).concat fourth (three ▸ ?_)
  all_goals decide

theorem periods_readable_four_days :
    (∀ update ∈ fourUpdates, update.Known .init) ∧
      ∀ calls : List Call, calls.map Call.update = fourUpdates →
        StaysReadable .utc .init calls := by
  have known : ∀ update ∈ fourUpdates, update.Known .init := by decide
  exact ⟨known, (periods_readable_iff .utc .init fourUpdates known).2.mpr
    fun _ given => staysClean_fourUpdates given⟩

/-- One call dated `infinity` stores a period that ends before it starts. -/
theorem infinite_date_unreadable :
    ¬ ∀ (zone : TimeZone) (currency : CurrencyTable) (calls : List Call),
      (∀ call ∈ calls, call.update.Known currency) → StaysReadable zone currency calls := by
  intro claim
  have readable := claim .utc .init [⟨⟨usd.id, rub.id, .finite 1 0, .infinity⟩, .any⟩]
    (by decide) _ (List.prefix_refl _)
    ⟨usd.id, rub.id, .finite 1 0, .infinity, TimeZone.utc.maxDate⟩ (by decide)
  exact absurd readable.1 (by decide)

end ApostolRates
