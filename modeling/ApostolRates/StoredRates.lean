import ApostolRates.ExchangeOrder
import ApostolRates.Overlaps
import ApostolRates.RateTexts

/-!
# The rate that is stored

Between the reply and the table a JSON number is printed and read again, with
eight fraction digits.  So the rate that a callback stores is the number in the
reply truncated to eight places: small digits are lost without an error, and a
rate below a hundred millionth is stored as zero.
-/

set_option autoImplicit false

namespace ApostolRates

open ThreeValued ValidTime Rollback Decimal

/-! ## What is stored for an instant -/

/-- A row of the rate at the instant: one that is in force then, or one from the
instant to `max_date()`, which is in force unless it is empty. -/
def RateRow.StoredFor (zone : TimeZone) (instant : Timestamptz) (row : RateRow) : Prop :=
  (row.validFromDate ≤ instant ∧ instant < row.validToDate) ∨
    row.validFromDate = instant ∧ row.validToDate = zone.maxDate

/-- The table has the number as the rate of the pair at the instant. -/
def RateTable.Stores (zone : TimeZone) (rate : RateTable) (pair : Uuid × Uuid)
    (instant : Timestamptz) (number : ℚ) : Prop :=
  (∃ row ∈ rate.rows, row.pair = pair ∧ row.StoredFor zone instant) ∧
    ∀ row ∈ rate.rows, row.pair = pair → row.StoredFor zone instant →
      row.value.rational = some number

theorem RateTable.Stores.unique {zone : TimeZone} {rate : RateTable} {pair : Uuid × Uuid}
    {instant : Timestamptz} {left right : ℚ} (leftStored : rate.Stores zone pair instant left)
    (rightStored : rate.Stores zone pair instant right) : left = right := by
  obtain ⟨⟨row, member, samePair, stored⟩, leftValue⟩ := leftStored
  have isLeft := leftValue row member samePair stored
  have isRight := rightStored.2 row member samePair stored
  exact Option.some.inj (isLeft.symm.trans isRight)

theorem RateTable.Stores.read {zone : TimeZone} {rate : RateTable}
    {currencyFrom currencyTo : Uuid} {instant : Timestamptz} {number : ℚ}
    (stored : rate.Stores zone (currencyFrom, currencyTo) instant number)
    (below : instant < zone.maxDate) (look : Scan) :
    (getRate look rate (some currencyFrom) (some currencyTo) (some instant)).bind
      Numeric.rational = some number := by
  obtain ⟨⟨row, member, samePair, isStored⟩, values⟩ := stored
  have covers : row.period.Covers instant := by
    rcases isStored with covers | ⟨starts, stops⟩
    · exact covers
    · exact ⟨starts.le, below.trans_eq stops.symm⟩
  have found : getRate look rate (some currencyFrom) (some currencyTo) (some instant) ≠ none :=
    (getRate_ne_none_iff look rate _ _ _).mpr ((selectRows_ne_zero_iff _ _ _ _).mpr
      ⟨row.period, mem_timelineOf.mpr ⟨row, member, samePair, rfl⟩, covers⟩)
  obtain ⟨value, answer⟩ := Option.ne_none_iff_exists'.mp found
  obtain ⟨shown, taken, rfl⟩ := Option.map_eq_some_iff.mp answer
  obtain ⟨shownMember, shownPair, shownCovers⟩ := mem_selectRows.mp (Scan.selectInto_mem taken)
  rw [answer]
  exact values shown shownMember shownPair (Or.inl shownCovers)

theorem stores_apply {zone : TimeZone} {currency : CurrencyTable} {scan : Scan}
    {rate after table : RateTable} {update : Update} {number : ℚ} (sound : rate.Sound zone)
    (success : update.apply zone currency scan rate = .ok after)
    (same : table.timeline update.pair = after.timeline update.pair)
    (value : update.value.rational = some number) :
    table.Stores zone update.pair update.date number := by
  let stored : Period Timestamptz Numeric → Prop := fun period =>
    period.Covers update.date ∨ period.start = update.date ∧ period.stop = zone.maxDate
  have revised := same.trans (updateRate_ok success).1
  have picks := update.taken_picks scan rate
  suffices onPeriods : (∃ period ∈ table.timeline update.pair, stored period) ∧
      ∀ period ∈ table.timeline update.pair, stored period → period.value = update.value by
    refine ⟨(exists_row_iff stored).mpr onPeriods.1, ?_⟩
    intro row member samePair isStored
    have held : row.value = update.value :=
      (forall_row_iff fun period => stored period → period.value = update.value).mpr onPeriods.2
        row member samePair isStored
    rw [held, value]
  rw [revised]
  rcases lt_or_ge update.date zone.maxDate with below | late
  · obtain ⟨period, member, covers⟩ : ∃ period ∈ revise zone.maxDate update.date update.value
        ((update.taken scan rate).map RateRow.period) (rate.timeline update.pair),
        period.Covers update.date := revise_covers_date picks below
    refine ⟨⟨period, member, Or.inl covers⟩, fun other otherMember isStored => ?_⟩
    have otherCovers : other.Covers update.date := by
      rcases isStored with covers | ⟨starts, stops⟩
      · exact covers
      · exact ⟨starts.le, stops ▸ below⟩
    exact revise_value_from_date picks le_rfl other otherMember otherCovers otherCovers.1
  · -- nothing is in force, and the ends of the row that is inserted are its own
    have soundAfter := sound_apply sound success update.pair
    have distinct := table.distinct update.pair
    rw [← same, revised] at soundAfter
    rw [revised] at distinct
    rw [update.taken_none_of_late sound late scan, revise_none] at distinct soundAfter ⊢
    let inserted : Period Timestamptz Numeric := ⟨update.date, zone.maxDate, update.value⟩
    have member : inserted ∈ inserted ::ₘ cut update.date (rate.timeline update.pair) :=
      Multiset.mem_cons_self _ _
    refine ⟨⟨inserted, member, Or.inr ⟨rfl, rfl⟩⟩, ?_⟩
    intro other otherMember isStored
    rcases isStored with covers | ⟨starts, stops⟩
    · have bounded := soundAfter.bounded other otherMember
      exact absurd (covers.2.trans_le (bounded.trans late)) (lt_irrefl _)
    · exact congrArg Period.value
        (distinct.eq otherMember member (congrArg₂ Prod.mk starts stops))

/-! ## The rate of a reply -/

/-- When the callback changes the rate of a key whose value is a JSON number, that
number has at most nine integer digits and the rate stored for the time of the
callback is the number without the digits after its eighth place.  So it is the
number itself exactly when it has no such digits, and a positive number is stored
as zero exactly when it is below a hundred millionth. -/
theorem stored_rate_truncated (context : Context) (rate after : RateTable) (pRequest : Uuid)
    (f : Fetch) (fields rates : List (String × Jsonb)) (code : String)
    (uCurrencyFrom uCurrencyTo : Uuid) (unscaled : Int) (scale : Nat)
    (reachable : Reachable context.zone rate)
    (request : context.httpFetch pRequest = some f)
    (parses : context.runtime.Parses f.response fields)
    (hasRates : Jsonb.field "rates" fields = some (.object rates))
    (hasRate : Jsonb.field code rates = some (.number unscaled scale))
    (base : context.currency.selectId (Jsonb.fieldText "base" fields) = some uCurrencyFrom)
    (known : context.currency.selectId (some code) = some uCurrencyTo)
    (success : exchangeRateDone context rate pRequest = .ok after)
    (changed : pairRows after.rows (uCurrencyFrom, uCurrencyTo) ≠
      pairRows rate.rows (uCurrencyFrom, uCurrencyTo)) :
    |fixed unscaled scale| < 10 ^ 9 ∧
      after.Stores context.zone (uCurrencyFrom, uCurrencyTo) context.now
        (truncate 8 (fixed unscaled scale)) ∧
      (after.Stores context.zone (uCurrencyFrom, uCurrencyTo) context.now (fixed unscaled scale) ↔
        ∃ whole : ℤ, fixed unscaled scale * 10 ^ 8 = whole) ∧
      (0 < fixed unscaled scale →
        (after.Stores context.zone (uCurrencyFrom, uCurrencyTo) context.now 0 ↔
          fixed unscaled scale < 1 / 10 ^ 8)) := by
  have differs : after ≠ rate := fun same => changed (by rw [same])
  have block := exchangeRateDone_changed success differs
  rw [request, Option.getD_some] at block
  obtain ⟨_, _, readFields, readRates, uFrom, _, _, readParses, _, _, _, readBase, found, looped⟩ :=
    exchangeRateBlock_changed_fields block differs
  obtain rfl : readFields = fields := readParses.unique parses
  obtain rfl : uFrom = uCurrencyFrom := Option.some.inj (readBase.symm.trans base)
  rw [hasRates] at found
  cases found
  have keys := parses.keys hasRates
  have textKeys : ((entryTexts rates).map Prod.fst).Nodup := (entryTexts_keys rates).symm ▸ keys
  have entry : (code, (Jsonb.number unscaled scale).asText) ∈ entryTexts rates :=
    (mem_entryTexts_iff keys).mpr ⟨_, hasRate, rfl⟩
  obtain ⟨value, own, number, applied, same⟩ :=
    (loop_ok context uFrom _ textKeys looped).1 _ entry uCurrencyTo known
  obtain ⟨inRange, truncated⟩ := toNumber_number number
  have stored := stores_apply reachable.sound applied same truncated
  refine ⟨inRange, stored, ?_, ?_⟩
  · rw [← truncate_eq_self_iff]
    refine ⟨fun exactly => stored.unique exactly, fun whole => ?_⟩
    rw [whole] at stored
    exact stored
  · intro positive
    have small := truncate_eq_zero_iff 8 (fixed unscaled scale)
    rw [abs_of_pos positive] at small
    rw [← small]
    refine ⟨fun zero => stored.unique zero, fun vanishes => ?_⟩
    rw [vanishes] at stored
    exact stored

/-- A reply with a rate of ten decimal places. -/
def preciseRates : List (String × Jsonb) := [("RUB", .number 962450261234 10)]

theorem preciseRates_uniqueKeys : (Jsonb.object preciseRates).UniqueKeys :=
  uniqueKeys_of_scalars (by decide) (by simp [preciseRates])

noncomputable def preciseContext : Context :=
  replyContext (replyFields preciseRates) (replyFields_uniqueKeys _ preciseRates_uniqueKeys)

def preciseTable : RateTable :=
  ⟨{⟨usd.id, rub.id, .finite 9624502612 8, .onDay 9000, TimeZone.utc.maxDate⟩}, by decide⟩

theorem precise_rate_stored :
    Reachable preciseContext.zone .empty ∧
      preciseContext.runtime.Parses
        (latestFetch (Jsonb.object (replyFields preciseRates)).toCString).response
        (replyFields preciseRates) ∧
      exchangeRateDone preciseContext .empty 1 = .ok preciseTable ∧
      pairRows preciseTable.rows (usd.id, rub.id) ≠
        pairRows RateTable.empty.rows (usd.id, rub.id) ∧
      preciseTable.Stores .utc (usd.id, rub.id) (.onDay 9000)
        (truncate 8 (fixed 962450261234 10)) ∧
      ¬ preciseTable.Stores .utc (usd.id, rub.id) (.onDay 9000) (fixed 962450261234 10) := by
  have reachable : Reachable preciseContext.zone .empty := ⟨[], rfl⟩
  have parses := replyRuntime_parses _ (replyFields_uniqueKeys _ preciseRates_uniqueKeys)
  have done : exchangeRateDone preciseContext .empty 1 = .ok preciseTable := rfl
  have changed : pairRows preciseTable.rows (usd.id, rub.id) ≠
      pairRows RateTable.empty.rows (usd.id, rub.id) := by decide
  have stored := stored_rate_truncated preciseContext .empty preciseTable 1 _ _ preciseRates "RUB"
    usd.id rub.id 962450261234 10 reachable rfl parses rfl rfl rfl rfl done changed
  refine ⟨reachable, parses, done, changed, stored.2.1, fun exactly => ?_⟩
  obtain ⟨whole, same⟩ := stored.2.2.1.mp exactly
  have scaled : (962450261234 : ℚ) = whole * 100 := by
    rw [← same, fixed]
    norm_num
  have integral : (962450261234 : ℤ) = whole * 100 := by exact_mod_cast scaled
  omega

/-- A reply with one billionth as the rate of BTC. -/
def tinyRates : List (String × Jsonb) := [("BTC", .number 1 9)]

theorem tinyRates_uniqueKeys : (Jsonb.object tinyRates).UniqueKeys :=
  uniqueKeys_of_scalars (by decide) (by simp [tinyRates])

def tinyTable : RateTable :=
  ⟨{⟨usd.id, btc.id, .finite 0 8, .onDay 9000, TimeZone.utc.maxDate⟩}, by decide⟩

/-- It is stored as zero. -/
theorem tiny_rate_stored_as_zero :
    ¬ ∀ (context : Context) (rate after : RateTable) (pRequest : Uuid) (f : Fetch)
      (fields rates : List (String × Jsonb)) (code : String) (uCurrencyFrom uCurrencyTo : Uuid)
      (unscaled : Int) (scale : Nat), Reachable context.zone rate →
      context.httpFetch pRequest = some f → context.runtime.Parses f.response fields →
      Jsonb.field "rates" fields = some (.object rates) →
      Jsonb.field code rates = some (.number unscaled scale) →
      context.currency.selectId (Jsonb.fieldText "base" fields) = some uCurrencyFrom →
      context.currency.selectId (some code) = some uCurrencyTo →
      exchangeRateDone context rate pRequest = .ok after →
      pairRows after.rows (uCurrencyFrom, uCurrencyTo) ≠
        pairRows rate.rows (uCurrencyFrom, uCurrencyTo) →
      after.Stores context.zone (uCurrencyFrom, uCurrencyTo) context.now (fixed unscaled scale) ∧
        (0 < fixed unscaled scale →
          ¬ after.Stores context.zone (uCurrencyFrom, uCurrencyTo) context.now 0) := by
  intro claim
  have unique := replyFields_uniqueKeys tinyRates tinyRates_uniqueKeys
  have stored := (claim (replyContext (replyFields tinyRates) unique) .empty tinyTable 1
    (latestFetch (Jsonb.object (replyFields tinyRates)).toCString) (replyFields tinyRates) tinyRates
    "BTC" usd.id btc.id 1 9 ⟨[], rfl⟩ rfl (replyRuntime_parses _ unique) rfl rfl rfl rfl rfl
    (by decide)).1
  have zero : RateRow.value ⟨usd.id, btc.id, .finite 0 8, .onDay 9000, TimeZone.utc.maxDate⟩ =
      .finite 0 8 := rfl
  have exactly := stored.2 ⟨usd.id, btc.id, .finite 0 8, .onDay 9000, TimeZone.utc.maxDate⟩
    (Multiset.mem_singleton_self _) rfl (Or.inr ⟨rfl, rfl⟩)
  rw [zero, Numeric.rational, Option.some.injEq, fixed, fixed] at exactly
  norm_num at exactly

end ApostolRates
