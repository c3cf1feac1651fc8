import ApostolRates.Coverage
import ApostolRates.Model.Callback

/-!
# The loop over a reply

The loop calls `update_rate` once for each key that names a currency, at one date
and for one pair each.  Such calls do not disturb each other, which gives both
results of this file: after a block without error every known key is in force, and
neither the order of the entries nor the unknown keys matter.
-/

set_option autoImplicit false

namespace ApostolRates

open ThreeValued ValidTime Rollback

/-! ## One turn -/

/-- Only the value is in force for the pair at the instant. -/
def RateTable.Shows (rate : RateTable) (pair : Uuid × Uuid) (instant : Timestamptz)
    (value : Numeric) : Prop :=
  (∃ period ∈ rate.timeline pair, period.Covers instant) ∧
    ∀ period ∈ rate.timeline pair, period.Covers instant → period.value = value

theorem shows_congr {rate after : RateTable} {pair : Uuid × Uuid} {instant : Timestamptz}
    {value : Numeric} (same : after.timeline pair = rate.timeline pair)
    (shown : rate.Shows pair instant value) : after.Shows pair instant value := by
  rw [RateTable.Shows, same]
  exact shown

theorem shows_apply {zone : TimeZone} {currency : CurrencyTable} {scan : Scan}
    {rate after : RateTable} {update : Update} (sound : rate.Sound zone)
    (below : update.date < zone.maxDate)
    (success : update.apply zone currency scan rate = .ok after) :
    after.Shows update.pair update.date update.value := by
  have nearby : update.date < nextStart zone.maxDate update.date (rate.timeline update.pair) :=
    (lt_nextStart_iff _ _ _ _).mpr ⟨below, fun _ _ later => later⟩
  rw [RateTable.Shows, (updateRate_ok success).1]
  exact (sound update.pair).revise_effect update.value (update.taken_picks scan rate) below
    le_rfl nearby

section
variable {context : Context} {uCurrencyFrom : Uuid} {rate after : RateTable}
variable {e : String × Option String}

theorem loopStep_unknown (unknown : context.currency.selectId (some e.1) = none) :
    loopStep context uCurrencyFrom rate e = .ok rate := by
  simp [loopStep, unknown]

/-- A turn with a known key is one call of `update_rate` with the parsed number. -/
theorem loopStep_known {uCurrencyTo : Uuid}
    (known : context.currency.selectId (some e.1) = some uCurrencyTo) :
    loopStep context uCurrencyFrom rate e = .ok after ↔
      ∃ value, toNumber e.2 rateTemplate = .ok (some value) ∧
        (⟨uCurrencyFrom, uCurrencyTo, value, context.now⟩ : Update).apply context.zone
          context.currency context.scan rate = .ok after := by
  simp only [loopStep, known]
  rw [except_bind_eq_ok]
  constructor
  · rintro ⟨parsed, number, success⟩
    obtain ⟨update, sameFrom, sameTo, sameValue, sameDate, applied⟩ := updateRate_ok_nonNull success
    rw [sameValue] at number
    refine ⟨update.value, number, ?_⟩
    have same : (⟨uCurrencyFrom, uCurrencyTo, update.value, context.now⟩ : Update) = update := by
      rw [Option.some.inj sameFrom, Option.some.inj sameTo, Option.some.inj sameDate]
    rw [same]
    exact applied
  · rintro ⟨value, number, applied⟩
    exact ⟨some value, number, applied⟩

end

/-! ## The whole loop -/

/-- The pair is not one that the entries update. -/
def Untouched (context : Context) (uCurrencyFrom : Uuid) (entries : List (String × Option String))
    (pair : Uuid × Uuid) : Prop :=
  ∀ e ∈ entries, ∀ uCurrencyTo, context.currency.selectId (some e.1) = some uCurrencyTo →
    pair ≠ (uCurrencyFrom, uCurrencyTo)

theorem untouched_of_key {context : Context} {uCurrencyFrom uCurrencyTo : Uuid} {key : String}
    {rest : List (String × Option String)} (fresh : key ∉ rest.map Prod.fst)
    (known : context.currency.selectId (some key) = some uCurrencyTo) :
    Untouched context uCurrencyFrom rest (uCurrencyFrom, uCurrencyTo) := by
  intro e member other otherKnown same
  obtain rfl : uCurrencyTo = other := congrArg Prod.snd same
  have sameKey : key = e.1 := CurrencyTable.selectId_injective known otherKnown
  exact fresh (sameKey ▸ List.mem_map_of_mem member)

/-- A loop without error does to the pair of each known key what one call does to it
in the table before the loop, and nothing to the pairs that no known key names. -/
theorem loop_ok (context : Context) (uCurrencyFrom : Uuid)
    (entries : List (String × Option String)) (keys : (entries.map Prod.fst).Nodup)
    {rate after : RateTable}
    (success : entries.foldlM (loopStep context uCurrencyFrom) rate = .ok after) :
    (∀ e ∈ entries, ∀ uCurrencyTo, context.currency.selectId (some e.1) = some uCurrencyTo →
        ∃ value own, toNumber e.2 rateTemplate = .ok (some value) ∧
          (⟨uCurrencyFrom, uCurrencyTo, value, context.now⟩ : Update).apply context.zone
            context.currency context.scan rate = .ok own ∧
          after.timeline (uCurrencyFrom, uCurrencyTo) =
            own.timeline (uCurrencyFrom, uCurrencyTo)) ∧
      ∀ pair, Untouched context uCurrencyFrom entries pair →
        after.timeline pair = rate.timeline pair := by
  induction entries generalizing rate with
  | nil =>
      cases success
      exact ⟨fun _ member => absurd member List.not_mem_nil, fun _ _ => rfl⟩
  | cons e rest ih =>
      obtain ⟨middle, head, tail⟩ := loop_cons_ok.mp success
      rw [List.map_cons, List.nodup_cons] at keys
      obtain ⟨done, kept⟩ := ih keys.2 tail
      cases known : context.currency.selectId (some e.1) with
      | none =>
          rw [loopStep_unknown known] at head
          cases head
          refine ⟨?_, fun pair untouched =>
            kept pair fun other member => untouched other (List.mem_cons_of_mem _ member)⟩
          intro other member uCurrencyTo otherKnown
          rcases List.mem_cons.mp member with rfl | member
          · rw [known] at otherKnown
            cases otherKnown
          · exact done other member uCurrencyTo otherKnown
      | some uCurrencyTo =>
          obtain ⟨value, number, applied⟩ := (loopStep_known known).mp head
          have others := (updateRate_ok applied).2
          constructor
          · intro other member otherTo otherKnown
            rcases List.mem_cons.mp member with rfl | member
            · obtain rfl : uCurrencyTo = otherTo := Option.some.inj (known.symm.trans otherKnown)
              exact ⟨value, middle, number, applied, kept _ (untouched_of_key keys.1 known)⟩
            · -- the call for the other key starts from a pair that this turn left alone
              obtain ⟨otherValue, middleOwn, otherNumber, otherApplied, same⟩ :=
                done other member otherTo otherKnown
              have apart : (uCurrencyFrom, otherTo) ≠ (uCurrencyFrom, uCurrencyTo) :=
                (untouched_of_key keys.1 known other member otherTo otherKnown).symm
              obtain ⟨own, ownApplied, ownSame⟩ :=
                apply_local (others (uCurrencyFrom, otherTo) apart) otherApplied
              exact ⟨otherValue, own, otherNumber, ownApplied, same.trans ownSame.symm⟩
          · intro pair untouched
            rw [kept pair fun other member => untouched other (List.mem_cons_of_mem _ member)]
            exact others pair (untouched e List.mem_cons_self uCurrencyTo known)

theorem loop_succeeds (context : Context) (uCurrencyFrom : Uuid)
    (entries : List (String × Option String)) (keys : (entries.map Prod.fst).Nodup)
    (rate : RateTable)
    (succeed : ∀ e ∈ entries, ∀ uCurrencyTo,
      context.currency.selectId (some e.1) = some uCurrencyTo →
        ∃ value own, toNumber e.2 rateTemplate = .ok (some value) ∧
          (⟨uCurrencyFrom, uCurrencyTo, value, context.now⟩ : Update).apply context.zone
            context.currency context.scan rate = .ok own) :
    ∃ after, entries.foldlM (loopStep context uCurrencyFrom) rate = .ok after := by
  induction entries generalizing rate with
  | nil => exact ⟨rate, rfl⟩
  | cons e rest ih =>
      rw [List.map_cons, List.nodup_cons] at keys
      have restSucceed := fun other member => succeed other (List.mem_cons_of_mem e member)
      cases known : context.currency.selectId (some e.1) with
      | none =>
          obtain ⟨after, tail⟩ := ih keys.2 rate restSucceed
          exact ⟨after, loop_cons_ok.mpr ⟨rate, loopStep_unknown known, tail⟩⟩
      | some uCurrencyTo =>
          obtain ⟨value, middle, number, applied⟩ :=
            succeed e List.mem_cons_self uCurrencyTo known
          have others := (updateRate_ok applied).2
          obtain ⟨after, tail⟩ := ih keys.2 middle fun other member otherTo otherKnown => by
            obtain ⟨otherValue, own, otherNumber, otherApplied⟩ :=
              restSucceed other member otherTo otherKnown
            have apart : (uCurrencyFrom, otherTo) ≠ (uCurrencyFrom, uCurrencyTo) :=
              (untouched_of_key keys.1 known other member otherTo otherKnown).symm
            obtain ⟨next, nextApplied, _⟩ :=
              apply_local (others (uCurrencyFrom, otherTo) apart).symm otherApplied
            exact ⟨otherValue, next, otherNumber, nextApplied⟩
          exact ⟨after, loop_cons_ok.mpr ⟨middle, (loopStep_known known).mpr
            ⟨value, number, applied⟩, tail⟩⟩

/-- After a loop without error every known key shows its number, and the pairs that
no known key names are as before. -/
theorem loop_complete (context : Context) (uCurrencyFrom : Uuid)
    (entries : List (String × Option String)) (keys : (entries.map Prod.fst).Nodup)
    (below : context.now < context.zone.maxDate) {rate after : RateTable}
    (sound : rate.Sound context.zone)
    (success : entries.foldlM (loopStep context uCurrencyFrom) rate = .ok after) :
    (∀ e ∈ entries, ∀ uCurrencyTo, context.currency.selectId (some e.1) = some uCurrencyTo →
        ∃ value, toNumber e.2 rateTemplate = .ok (some value) ∧
          after.Shows (uCurrencyFrom, uCurrencyTo) context.now value) ∧
      ∀ pair, Untouched context uCurrencyFrom entries pair →
        after.timeline pair = rate.timeline pair := by
  obtain ⟨done, kept⟩ := loop_ok context uCurrencyFrom entries keys success
  refine ⟨?_, kept⟩
  intro e member uCurrencyTo known
  obtain ⟨value, own, number, applied, same⟩ := done e member uCurrencyTo known
  exact ⟨value, number, shows_congr same (shows_apply sound below applied)⟩

/-! ## All or nothing -/

/-- The base of the reply is a currency, every known key of its rates shows the
number of the entry, and the rows of the other pairs are as before. -/
def ProcessedCompletely (context : Context) (rate after : RateTable) (f : Fetch) : Prop :=
  ∃ r uCurrencyFrom entries,
    decodeReply context.runtime f.response = .ok r ∧
    context.currency.selectId r.base = some uCurrencyFrom ∧
    jsonbEachText r.rates = .ok entries ∧
    (∀ e ∈ entries, ∀ uCurrencyTo, context.currency.selectId (some e.1) = some uCurrencyTo →
      ∃ value, toNumber e.2 rateTemplate = .ok (some value) ∧
        selectRows after.rows (some uCurrencyFrom) (some uCurrencyTo) (some context.now) ≠ 0 ∧
        ∀ row ∈ selectRows after.rows (some uCurrencyFrom) (some uCurrencyTo)
          (some context.now), row.value = value) ∧
    ∀ pair, Untouched context uCurrencyFrom entries pair →
      pairRows after.rows pair = pairRows rate.rows pair

theorem RateTable.Shows.rows {rate : RateTable} {currencyFrom currencyTo : Uuid}
    {instant : Timestamptz} {value : Numeric}
    (shown : rate.Shows (currencyFrom, currencyTo) instant value) :
    selectRows rate.rows (some currencyFrom) (some currencyTo) (some instant) ≠ 0 ∧
      ∀ row ∈ selectRows rate.rows (some currencyFrom) (some currencyTo) (some instant),
        row.value = value := by
  refine ⟨(selectRows_ne_zero_iff _ _ _ _).mpr shown.1, fun row member => ?_⟩
  obtain ⟨rowMember, samePair, covers⟩ := mem_selectRows.mp member
  exact shown.2 row.period (mem_timelineOf.mpr ⟨row, rowMember, samePair, rfl⟩) covers

section
variable {context : Context} {rate after : RateTable} {f : Fetch}

theorem exchangeRateBlock_changed (success : exchangeRateBlock context rate f = .ok after)
    (changed : after ≠ rate) :
    f.status = some 200 ∧ f.IsLatest ∧ ∃ r uCurrencyFrom entries,
      decodeReply context.runtime f.response = .ok r ∧ r.success ≠ some false ∧
      context.currency.selectId r.base = some uCurrencyFrom ∧
      jsonbEachText r.rates = .ok entries ∧
      entries.foldlM (loopStep context uCurrencyFrom) rate = .ok after := by
  unfold exchangeRateBlock at success
  split at success
  · rename_i answered
    split at success
    · rename_i isLatest
      obtain ⟨r, decoded, success⟩ := except_bind_eq_ok.mp success
      unfold processReply at success
      split at success
      · cases success
        exact absurd rfl changed
      · rename_i accepted
        rw [holds_negate] at accepted
        split at success
        · cases success
          exact absurd rfl changed
        · rename_i uCurrencyFrom base
          obtain ⟨entries, each, success⟩ := except_bind_eq_ok.mp success
          have status : f.status = some 200 := by
            cases given : f.status with
            | none => simp [given] at answered
            | some code => rw [given] at answered; exact congrArg some answered
          exact ⟨status, isLatest, r, uCurrencyFrom, entries, decoded, accepted, base, each,
            success⟩
    · cases success
      exact absurd rfl changed
  · obtain ⟨_, _, success⟩ := except_bind_eq_ok.mp success
    cases success
    exact absurd rfl changed

theorem rates_of_changed {fields : List (String × Jsonb)} {uCurrencyFrom : Uuid}
    {entries : List (String × Option String)}
    (each : jsonbEachText (Jsonb.fieldJsonb "rates" fields) = .ok entries)
    (looped : entries.foldlM (loopStep context uCurrencyFrom) rate = .ok after)
    (changed : after ≠ rate) :
    ∃ rates, Jsonb.field "rates" fields = some (.object rates) ∧ entries = entryTexts rates := by
  cases found : Jsonb.fieldJsonb "rates" fields with
  | none =>
      rw [found] at each
      cases each
      cases looped
      exact absurd rfl changed
  | some json =>
      rw [found] at each
      cases json with
      | object rates =>
          cases each
          exact ⟨rates, Jsonb.field_of_fieldJsonb found, rfl⟩
      | _ => cases each

theorem exchangeRateBlock_changed_fields (success : exchangeRateBlock context rate f = .ok after)
    (changed : after ≠ rate) :
    f.status = some 200 ∧ f.IsLatest ∧ ∃ fields rates uCurrencyFrom declared date,
      context.runtime.Parses f.response fields ∧
      strict Jsonb.boolIn (Jsonb.fieldText "success" fields) = .ok declared ∧
      declared ≠ some false ∧
      strict context.runtime.dateIn (Jsonb.fieldText "date" fields) = .ok date ∧
      context.currency.selectId (Jsonb.fieldText "base" fields) = some uCurrencyFrom ∧
      Jsonb.field "rates" fields = some (.object rates) ∧
      (entryTexts rates).foldlM (loopStep context uCurrencyFrom) rate = .ok after := by
  obtain ⟨status, isLatest, r, uCurrencyFrom, entries, decoded, accepted, base, each, looped⟩ :=
    exchangeRateBlock_changed success changed
  have based : r.base ≠ none := by
    obtain ⟨row, _, code, _⟩ := CurrencyTable.selectId_eq_some base
    rw [code]
    exact Option.some_ne_none row.code
  obtain ⟨fields, parses, record⟩ := decodeReply_object decoded based
  obtain ⟨declared, dated, isBase, isRates⟩ := jsonbToRecord_object.mp record
  rw [isBase] at base
  rw [isRates] at each
  obtain ⟨rates, hasRates, rfl⟩ := rates_of_changed each looped changed
  exact ⟨status, isLatest, fields, rates, uCurrencyFrom, r.success, r.date, parses, declared,
    accepted, dated, base, hasRates, looped⟩

theorem exchangeRateBlock_loop {r : Reply} {uCurrencyFrom : Uuid}
    {entries : List (String × Option String)} (status : f.status = some 200)
    (isLatest : f.IsLatest) (decoded : decodeReply context.runtime f.response = .ok r)
    (accepted : r.success ≠ some false)
    (base : context.currency.selectId r.base = some uCurrencyFrom)
    (each : jsonbEachText r.rates = .ok entries) :
    exchangeRateBlock context rate f =
      entries.foldlM (loopStep context uCurrencyFrom) rate := by
  have answered : f.status.getD 0 = 200 := by rw [status, Option.getD_some]
  have notRefused : ¬ Holds (negate r.success) := by rwa [holds_negate]
  rw [exchangeRateBlock, if_pos answered, if_pos isLatest, decoded]
  simp only [bind, Except.bind, processReply, if_neg notRefused, base, each]

theorem exchangeRateBlock_complete (sound : rate.Sound context.zone)
    (below : context.now < context.zone.maxDate)
    (success : exchangeRateBlock context rate f = .ok after) :
    after = rate ∨ ProcessedCompletely context rate after f := by
  by_cases same : after = rate
  · exact Or.inl same
  · obtain ⟨_, _, r, uCurrencyFrom, entries, decoded, _, base, each, looped⟩ :=
      exchangeRateBlock_changed success same
    have keys := jsonbEachText_keys (decodeReply_uniqueKeys decoded) each
    obtain ⟨shown, kept⟩ := loop_complete context uCurrencyFrom entries keys below sound looped
    refine Or.inr ⟨r, uCurrencyFrom, entries, decoded, base, each, ?_, ?_⟩
    · intro e member uCurrencyTo known
      obtain ⟨value, number, shown⟩ := shown e member uCurrencyTo known
      exact ⟨value, number, shown.rows⟩
    · intro pair untouched
      rw [pairRows_eq, pairRows_eq]
      exact congrArg _ (kept pair untouched)

theorem exchangeRateDone_changed {pRequest : Uuid}
    (success : exchangeRateDone context rate pRequest = .ok after) (changed : after ≠ rate) :
    exchangeRateBlock context rate ((context.httpFetch pRequest).getD Fetch.null) = .ok after := by
  have same := Except.ok.inj success
  cases outcome : exchangeRateBlock context rate
      ((context.httpFetch pRequest).getD Fetch.null) with
  | error failure =>
      rw [outcome, undoing_error] at same
      exact absurd same.symm changed
  | ok result =>
      rw [outcome, undoing_ok] at same
      rw [same]

end

/-- On a reachable table, before `max_date()`, the callback never raises, and it
either leaves the table as it was or processes the reply completely. -/
theorem exchange_all_or_nothing (context : Context) (rate : RateTable) (pRequest : Uuid)
    (reachable : Reachable context.zone rate) (below : context.now < context.zone.maxDate) :
    ∃ after, exchangeRateDone context rate pRequest = .ok after ∧
      (after = rate ∨ ProcessedCompletely context rate after
        ((context.httpFetch pRequest).getD Fetch.null)) := by
  refine ⟨_, rfl, ?_⟩
  cases outcome : exchangeRateBlock context rate
      ((context.httpFetch pRequest).getD Fetch.null) with
  | error failure => exact Or.inl rfl
  | ok after => exact exchangeRateBlock_complete reachable.sound below outcome

/-! ## One reply -/

def replyFields (rates : List (String × Jsonb)) : List (String × Jsonb) :=
  [("base", .string "USD"), ("rates", .object rates), ("success", .bool true)]

theorem uniqueKeys_of_scalars {fields : List (String × Jsonb)}
    (keys : (fields.map Prod.fst).Nodup)
    (scalars : ∀ field ∈ fields, (∃ unscaled scale, field.2 = .number unscaled scale) ∨
      ∃ text, field.2 = .string text) : (Jsonb.object fields).UniqueKeys := by
  refine .object _ keys fun field member => ?_
  rcases scalars field member with ⟨_, _, isNumber⟩ | ⟨_, isString⟩
  · rw [isNumber]
    exact .number _ _
  · rw [isString]
    exact .string _

theorem replyFields_uniqueKeys (rates : List (String × Jsonb))
    (unique : (Jsonb.object rates).UniqueKeys) :
    (Jsonb.object (replyFields rates)).UniqueKeys := by
  refine .object _ (by simp [replyFields]) ?_
  intro field member
  simp only [replyFields, List.mem_cons, List.not_mem_nil, or_false] at member
  rcases member with rfl | rfl | rfl
  · exact .string _
  · exact unique
  · exact .bool true

def plainRates : List (String × Jsonb) := [("RUB", .number 96245026 6)]

/-- The rate of RUB behind a code that no currency has. -/
def mixedRates : List (String × Jsonb) := [("XYZ", .string "n/a"), ("RUB", .number 96245026 6)]

def plainText : String := (Jsonb.object (replyFields plainRates)).toCString

def mixedText : String := (Jsonb.object (replyFields mixedRates)).toCString

theorem plainRates_uniqueKeys : (Jsonb.object plainRates).UniqueKeys :=
  uniqueKeys_of_scalars (by decide) (by simp [plainRates])

theorem mixedRates_uniqueKeys : (Jsonb.object mixedRates).UniqueKeys :=
  uniqueKeys_of_scalars (by decide) (by simp [mixedRates])

def sampleRuntime : Runtime where
  convertFrom bytes :=
    if bytes = utf8Bytes plainText then .ok plainText
    else if bytes = utf8Bytes mixedText then .ok mixedText
    else .error .characterNotInRepertoire
  jsonbIn text :=
    if text = plainText then .ok ⟨_, replyFields_uniqueKeys _ plainRates_uniqueKeys⟩
    else if text = mixedText then .ok ⟨_, replyFields_uniqueKeys _ mixedRates_uniqueKeys⟩
    else .error .invalidTextRepresentation
  dateIn _ := .error .invalidDatetimeFormat
  failureNotice _ := .ok ()

def latestFetch (text : String) : Fetch where
  agent := some "api.exchangerate.host"
  command := some "latest"
  status := some 200
  statusText := some "OK"
  response := some (utf8Bytes text)

noncomputable def sampleContext : Context where
  runtime := sampleRuntime
  zone := .utc
  currency := .init
  httpFetch request := if request = 1 then some (latestFetch plainText)
    else if request = 2 then some (latestFetch mixedText) else none
  scan := .any
  now := .onDay 9000

theorem plain_parses :
    sampleRuntime.Parses (latestFetch plainText).response (replyFields plainRates) :=
  ⟨utf8Bytes plainText, plainText, replyFields_uniqueKeys _ plainRates_uniqueKeys, rfl,
    by simp [sampleRuntime], by simp [sampleRuntime]⟩

theorem mixed_parses :
    sampleRuntime.Parses (latestFetch mixedText).response (replyFields mixedRates) := by
  have bytes : utf8Bytes mixedText ≠ utf8Bytes plainText := by decide
  have text : mixedText ≠ plainText := by decide
  exact ⟨utf8Bytes mixedText, mixedText, replyFields_uniqueKeys _ mixedRates_uniqueKeys, rfl,
    by simp [sampleRuntime, bytes], by simp [sampleRuntime, text]⟩

def replyRuntime (fields : List (String × Jsonb)) (unique : (Jsonb.object fields).UniqueKeys) :
    Runtime where
  convertFrom bytes :=
    if bytes = utf8Bytes (Jsonb.object fields).toCString then .ok (Jsonb.object fields).toCString
    else .error .characterNotInRepertoire
  jsonbIn text :=
    if text = (Jsonb.object fields).toCString then .ok ⟨.object fields, unique⟩
    else .error .invalidTextRepresentation
  dateIn _ := .error .invalidDatetimeFormat
  failureNotice _ := .ok ()

/-- The object is what request 1 was answered with. -/
noncomputable def replyContext (fields : List (String × Jsonb))
    (unique : (Jsonb.object fields).UniqueKeys) : Context where
  runtime := replyRuntime fields unique
  zone := .utc
  currency := .init
  httpFetch request :=
    if request = 1 then some (latestFetch (Jsonb.object fields).toCString) else none
  scan := .any
  now := .onDay 9000

theorem replyRuntime_parses (fields : List (String × Jsonb))
    (unique : (Jsonb.object fields).UniqueKeys) :
    (replyRuntime fields unique).Parses (latestFetch (Jsonb.object fields).toCString).response
      fields :=
  ⟨utf8Bytes (Jsonb.object fields).toCString, (Jsonb.object fields).toCString, unique, rfl,
    by simp [replyRuntime], by simp [replyRuntime]⟩

/-- A reply with two codes of the currency table and two others. -/
def severalRates : List (String × Jsonb) :=
  [("BTC", .number 278 7), ("RUB", .number 97 0), ("XAU", .number 513 6), ("XYZ", .string "n/a")]

theorem severalRates_uniqueKeys : (Jsonb.object severalRates).UniqueKeys :=
  uniqueKeys_of_scalars (by decide) (by simp [severalRates])

noncomputable def severalContext : Context :=
  { replyContext (replyFields severalRates) (replyFields_uniqueKeys _ severalRates_uniqueKeys) with
    now := .onDay 9005 }

def btcTable : RateTable :=
  ⟨{⟨usd.id, btc.id, .finite 278 7, .onDay 9005, TimeZone.utc.maxDate⟩,
      ⟨usd.id, rub.id, .finite 96245026 6, .onDay 9000, TimeZone.utc.maxDate⟩}, by decide⟩

def severalTable : RateTable :=
  ⟨{⟨usd.id, rub.id, .finite 97 0, .onDay 9005, TimeZone.utc.maxDate⟩,
      ⟨usd.id, btc.id, .finite 278 7, .onDay 9005, TimeZone.utc.maxDate⟩,
      ⟨usd.id, rub.id, .finite 96245026 6, .onDay 9000, .onDay 9005⟩}, by decide⟩

theorem severalTable_done :
    exchangeRateDone severalContext firstTable 1 = .ok severalTable := by
  have btcStep : loopStep severalContext usd.id firstTable
      ("BTC", (Jsonb.number 278 7).asText) = .ok btcTable :=
    (loopStep_known rfl).mpr ⟨.finite 278 7, rfl, apply_of_uncovered _ (by decide) (by decide)
      (by decide)⟩
  have rubStep : loopStep severalContext usd.id btcTable
      ("RUB", (Jsonb.number 97 0).asText) = .ok severalTable :=
    (loopStep_known rfl).mpr ⟨.finite 97 0, rfl, apply_of_covered _ (by decide) (by decide)
      (by decide)⟩
  have looped : (entryTexts severalRates).foldlM (loopStep severalContext usd.id) firstTable =
      .ok severalTable :=
    loop_cons_ok.mpr ⟨_, btcStep, loop_cons_ok.mpr ⟨_, rubStep, rfl⟩⟩
  have decoded : decodeReply severalContext.runtime
      (latestFetch (Jsonb.object (replyFields severalRates)).toCString).response =
        .ok ⟨some true, some "USD", none, some (.object severalRates)⟩ := by
    refine (decodeReply_of_parses (replyRuntime_parses _ _)).trans ?_
    exact jsonbToRecord_object.mpr ⟨rfl, rfl, rfl, rfl⟩
  have isLatest : (latestFetch (Jsonb.object (replyFields severalRates)).toCString).IsLatest := by
    simp [Fetch.IsLatest, latestFetch]
  have block := (exchangeRateBlock_loop rfl isLatest decoded
    (by decide) rfl rfl).trans looped
  exact congrArg Except.ok ((congrArg _ block).trans (undoing_ok _ _))

theorem exchange_several_rates :
    Reachable severalContext.zone firstTable ∧ severalContext.now < severalContext.zone.maxDate ∧
      exchangeRateDone severalContext firstTable 1 = .ok severalTable ∧
      ProcessedCompletely severalContext firstTable severalTable
        (latestFetch (Jsonb.object (replyFields severalRates)).toCString) := by
  have reachable : Reachable severalContext.zone firstTable :=
    Reachable.apply ⟨[], rfl⟩ (firstRate_apply .any)
  have below : severalContext.now < severalContext.zone.maxDate := by decide
  obtain ⟨after, success, outcome⟩ :=
    exchange_all_or_nothing severalContext firstTable 1 reachable below
  obtain rfl : severalTable = after := Except.ok.inj (severalTable_done.symm.trans success)
  have changed : severalTable ≠ firstTable := fun same =>
    absurd (congrArg (fun table : RateTable => table.rows.card) same) (by decide)
  exact ⟨reachable, below, severalTable_done, outcome.resolve_left changed⟩

end ApostolRates
