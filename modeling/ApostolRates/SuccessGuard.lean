import ApostolRates.ExchangeOrder

/-!
# What a write requires

A callback that changes the table has gone through every check of its block.  The
check of `success` is a negation: it stops a reply that says `false`, and a reply
that says nothing goes on.  This file has the exact condition under which such a
reply is written, in terms of the request, the reply and the table before the call.
-/

set_option autoImplicit false

namespace ApostolRates

open ThreeValued ValidTime Rollback

/-! ## Which calls succeed and which change something -/

/-- The unique index admits what the call does.  An overwrite leaves the ends alone;
otherwise a row that ends at the date of the call meets no row of its pair with the
same ends, and neither does the row that is inserted. -/
def Update.Admitted (zone : TimeZone) (scan : Scan) (rate : RateTable) (update : Update) : Prop :=
  update.Overwrites (update.taken scan rate) ∨
    (∀ row ∈ rate.rows, row.pair = update.pair → row.period.Covers update.date →
      ∀ other ∈ rate.rows, other.pair = update.pair → other.validFromDate = row.validFromDate →
        other = row ∨ other.validToDate < update.date) ∧
    ((∃ row ∈ rate.rows, row.pair = update.pair ∧ row.period.Covers update.date) ∨
      ∀ row ∈ rate.rows, row.pair = update.pair → row.period.ends ≠ (update.date, zone.maxDate))

/-- The call overwrites, and the rows in force at its date already hold its value. -/
def Update.Settled (scan : Scan) (rate : RateTable) (update : Update) : Prop :=
  update.Overwrites (update.taken scan rate) ∧
    ∀ row ∈ rate.rows, row.pair = update.pair → row.period.Covers update.date →
      row.value = update.value

theorem RateRow.eq_of_period {left right : RateRow} (samePair : left.pair = right.pair)
    (samePeriod : left.period = right.period) : left = right := by
  cases left
  cases right
  cases samePair
  cases samePeriod
  rfl

section
variable {zone : TimeZone} {currency : CurrencyTable} {scan : Scan} {rate after : RateTable}
variable {update : Update}

theorem Update.admitted_iff :
    update.Admitted zone scan rate ↔
      Distinct (revise zone.maxDate update.date update.value
        ((update.taken scan rate).map RateRow.period) (rate.timeline update.pair)) := by
  rw [distinct_revise_iff (rate.distinct update.pair) (update.taken_picks scan rate),
    Update.overwrites_iff]
  refine or_congr Iff.rfl (and_congr ?_ (or_congr ?_ ?_))
  · constructor
    · intro apart period member covers other otherMember starts
      obtain ⟨row, rowMember, rowPair, rfl⟩ := mem_timelineOf.mp member
      obtain ⟨otherRow, otherRowMember, otherPair, rfl⟩ := mem_timelineOf.mp otherMember
      exact (apart row rowMember rowPair covers otherRow otherRowMember otherPair starts).imp_left
        (congrArg RateRow.period)
    · intro apart row member samePair covers other otherMember otherPair starts
      refine (apart row.period (mem_timelineOf.mpr ⟨row, member, samePair, rfl⟩) covers
        other.period (mem_timelineOf.mpr ⟨other, otherMember, otherPair, rfl⟩) starts).imp_left ?_
      exact RateRow.eq_of_period (otherPair.trans samePair.symm)
  · exact exists_row_iff fun period => period.Covers update.date
  · exact forall_row_iff fun period => period.ends ≠ (update.date, zone.maxDate)

theorem Update.admitted_iff_succeeds (known : update.Known currency) :
    update.Admitted zone scan rate ↔
      ∃ after, update.apply zone currency scan rate = .ok after := by
  rw [updateRate_succeeds_iff, update.admitted_iff]
  exact (and_iff_left (Or.inr known)).symm

theorem Update.settled_iff (success : update.apply zone currency scan rate = .ok after) :
    update.Settled scan rate ↔ after.timeline update.pair = rate.timeline update.pair := by
  rw [(updateRate_ok success).1, revise_eq_self_iff, Update.overwrites_iff]
  exact and_congr Iff.rfl
    (forall_row_iff fun period => period.Covers update.date → period.value = update.value)

end

/-! ## Which loops write -/

def AllAdmitted (context : Context) (rate : RateTable) (uCurrencyFrom : Uuid)
    (rates : List (String × Jsonb)) : Prop :=
  ∀ code json uCurrencyTo, Jsonb.field code rates = some json →
    context.currency.selectId (some code) = some uCurrencyTo →
    ∃ value, toNumber json.asText rateTemplate = .ok (some value) ∧
      (⟨uCurrencyFrom, uCurrencyTo, value, context.now⟩ : Update).Admitted context.zone
        context.scan rate

def AllSettled (context : Context) (rate : RateTable) (uCurrencyFrom : Uuid)
    (rates : List (String × Jsonb)) : Prop :=
  ∀ code json uCurrencyTo, Jsonb.field code rates = some json →
    context.currency.selectId (some code) = some uCurrencyTo →
    ∃ value, toNumber json.asText rateTemplate = .ok (some value) ∧
      (⟨uCurrencyFrom, uCurrencyTo, value, context.now⟩ : Update).Settled context.scan rate

section
variable {context : Context} {uCurrencyFrom : Uuid} {rates : List (String × Jsonb)}
variable {rate after : RateTable}

theorem loop_succeeds_iff (keys : (rates.map Prod.fst).Nodup)
    (base : context.currency.References uCurrencyFrom) :
    (∃ after, (entryTexts rates).foldlM (loopStep context uCurrencyFrom) rate = .ok after) ↔
      AllAdmitted context rate uCurrencyFrom rates := by
  have textKeys : ((entryTexts rates).map Prod.fst).Nodup := (entryTexts_keys rates).symm ▸ keys
  have pairKnown : ∀ (code : String) (uCurrencyTo : Uuid) (value : Numeric),
      context.currency.selectId (some code) = some uCurrencyTo →
      (⟨uCurrencyFrom, uCurrencyTo, value, context.now⟩ : Update).Known context.currency :=
    fun _ _ _ known => ⟨base, CurrencyTable.selectId_references known⟩
  constructor
  · rintro ⟨after, success⟩ code json uCurrencyTo found known
    obtain ⟨value, own, number, applied, _⟩ :=
      (loop_ok context uCurrencyFrom _ textKeys success).1 (code, json.asText)
        ((mem_entryTexts_iff keys).mpr ⟨json, found, rfl⟩) uCurrencyTo known
    exact ⟨value, number,
      (Update.admitted_iff_succeeds (pairKnown code _ value known)).mpr ⟨own, applied⟩⟩
  · intro admitted
    refine loop_succeeds context uCurrencyFrom _ textKeys rate fun e member uCurrencyTo known => ?_
    obtain ⟨json, found, text⟩ := (mem_entryTexts_iff keys).mp member
    obtain ⟨value, number, accepted⟩ := admitted e.1 json uCurrencyTo found known
    obtain ⟨own, applied⟩ :=
      (Update.admitted_iff_succeeds (pairKnown e.1 _ value known)).mp accepted
    exact ⟨value, own, text ▸ number, applied⟩

theorem loop_unchanged_iff (keys : (rates.map Prod.fst).Nodup)
    (success : (entryTexts rates).foldlM (loopStep context uCurrencyFrom) rate = .ok after) :
    after = rate ↔ AllSettled context rate uCurrencyFrom rates := by
  have textKeys : ((entryTexts rates).map Prod.fst).Nodup := (entryTexts_keys rates).symm ▸ keys
  obtain ⟨done, kept⟩ := loop_ok context uCurrencyFrom _ textKeys success
  constructor
  · rintro rfl code json uCurrencyTo found known
    obtain ⟨value, own, number, applied, same⟩ := done (code, json.asText)
      ((mem_entryTexts_iff keys).mpr ⟨json, found, rfl⟩) uCurrencyTo known
    exact ⟨value, number, (Update.settled_iff applied).mpr same.symm⟩
  · intro settled
    refine RateTable.ext_timelines fun pair => ?_
    by_cases untouched : Untouched context uCurrencyFrom (entryTexts rates) pair
    · exact kept pair untouched
    · simp only [Untouched, not_forall, not_not] at untouched
      obtain ⟨e, member, uCurrencyTo, known, rfl⟩ := untouched
      obtain ⟨value, own, number, applied, same⟩ := done e member uCurrencyTo known
      obtain ⟨json, found, text⟩ := (mem_entryTexts_iff keys).mp member
      obtain ⟨settledValue, settledNumber, isSettled⟩ := settled e.1 json uCurrencyTo found known
      obtain rfl : value = settledValue := by
        rw [text, number] at settledNumber
        exact Option.some.inj (Except.ok.inj settledNumber)
      exact same.trans ((Update.settled_iff applied).mp isSettled)

end

/-! ## Which callbacks write -/

def Fetch.Answered (f : Fetch) : Prop :=
  f.status = some 200 ∧ f.agent = some "api.exchangerate.host" ∧ f.command = some "latest"

theorem Fetch.isLatest_iff {f : Fetch} :
    f.IsLatest ↔ f.agent = some "api.exchangerate.host" ∧ f.command = some "latest" := by
  simp [Fetch.IsLatest]

/-- The reply is an object with this `success`, which is `none` where the field is
missing or null, every other check lets it pass, and its rates differ from those of
the table. -/
def ReplyWrites (context : Context) (rate : RateTable) (f : Fetch) (success : Option Bool) : Prop :=
  f.Answered ∧ ∃ fields rates uCurrencyFrom, context.runtime.Parses f.response fields ∧
    strict Jsonb.boolIn (Jsonb.fieldText "success" fields) = .ok success ∧
    (∃ date, strict context.runtime.dateIn (Jsonb.fieldText "date" fields) = .ok date) ∧
    context.currency.selectId (Jsonb.fieldText "base" fields) = some uCurrencyFrom ∧
    Jsonb.field "rates" fields = some (.object rates) ∧
    AllAdmitted context rate uCurrencyFrom rates ∧ ¬ AllSettled context rate uCurrencyFrom rates

section
variable {context : Context} {rate after : RateTable} {pRequest : Uuid} {f : Fetch}

theorem replyWrites_of_changed (success : exchangeRateBlock context rate f = .ok after)
    (changed : after ≠ rate) :
    ∃ declared, declared ≠ some false ∧ ReplyWrites context rate f declared := by
  obtain ⟨status, isLatest, fields, rates, uCurrencyFrom, declared, date, parses, success_ok,
    accepted, date_ok, base, hasRates, looped⟩ := exchangeRateBlock_changed_fields success changed
  have keys := parses.keys hasRates
  refine ⟨declared, accepted, ⟨status, Fetch.isLatest_iff.mp isLatest⟩, fields, rates,
    uCurrencyFrom, parses, success_ok, ⟨date, date_ok⟩, base, hasRates, ?_, ?_⟩
  · exact (loop_succeeds_iff keys (CurrencyTable.selectId_references base)).mp ⟨after, looped⟩
  · exact fun settled => changed ((loop_unchanged_iff keys looped).mpr settled)

theorem changed_of_replyWrites {declared : Option Bool} (accepted : declared ≠ some false)
    (writes : ReplyWrites context rate f declared) :
    ∃ after, exchangeRateBlock context rate f = .ok after ∧ after ≠ rate := by
  obtain ⟨⟨status, isLatest⟩, fields, rates, uCurrencyFrom, parses, success_ok, ⟨date, date_ok⟩,
    base, hasRates, admitted, unsettled⟩ := writes
  have keys := parses.keys hasRates
  obtain ⟨after, looped⟩ :=
    (loop_succeeds_iff keys (CurrencyTable.selectId_references base)).mpr admitted
  have decoded : decodeReply context.runtime f.response =
      .ok ⟨declared, Jsonb.fieldText "base" fields, date, some (.object rates)⟩ := by
    rw [decodeReply_of_parses parses, jsonbToRecord_object]
    exact ⟨success_ok, date_ok, rfl, (Jsonb.fieldJsonb_of_object hasRates).symm⟩
  refine ⟨after, ?_, fun same => unsettled ((loop_unchanged_iff keys looped).mp same)⟩
  rw [exchangeRateBlock_loop status (Fetch.isLatest_iff.mpr isLatest) decoded accepted base rfl]
  exact looped

/-- A callback changes the table exactly when its reply does not say `false` and
passes every other check. -/
theorem exchangeRateDone_changes_iff :
    (∃ after, exchangeRateDone context rate pRequest = .ok after ∧ after ≠ rate) ↔
      ∃ declared, declared ≠ some false ∧
        ReplyWrites context rate ((context.httpFetch pRequest).getD Fetch.null) declared := by
  constructor
  · rintro ⟨after, success, changed⟩
    exact replyWrites_of_changed (exchangeRateDone_changed success changed) changed
  · rintro ⟨declared, accepted, writes⟩
    obtain ⟨after, success, changed⟩ := changed_of_replyWrites accepted writes
    refine ⟨after, ?_, changed⟩
    rw [exchangeRateDone, success, undoing_ok]

end

/-! ## Declared success -/

/-- The answer is an object whose `success` is there and true and whose base is the
code of a currency. -/
def Declared (context : Context) (f : Fetch) : Prop :=
  f.Answered ∧ ∃ fields, context.runtime.Parses f.response fields ∧
    (∃ text, Jsonb.fieldText "success" fields = some text ∧ Jsonb.boolIn text = .ok true) ∧
    ∃ row ∈ context.currency.rows, Jsonb.fieldText "base" fields = some row.code

theorem declared_of_replyWrites {context : Context} {rate : RateTable} {f : Fetch}
    (writes : ReplyWrites context rate f (some true)) : Declared context f := by
  obtain ⟨answered, fields, rates, uCurrencyFrom, parses, success_ok, _, base, _⟩ := writes
  obtain ⟨row, member, code, _⟩ := CurrencyTable.selectId_eq_some base
  exact ⟨answered, fields, parses, strict_eq_some.mp success_ok, row, member, code⟩

theorem not_declared_of_replyWrites {context : Context} {rate : RateTable} {f : Fetch}
    (writes : ReplyWrites context rate f none) : ¬ Declared context f := by
  obtain ⟨_, fields, rates, uCurrencyFrom, parses, success_ok, _⟩ := writes
  rintro ⟨_, others, othersParse, ⟨text, present, _⟩, _⟩
  rw [othersParse.unique parses, strict_eq_none.mp success_ok] at present
  cases present

/-- A callback changes the table only on a declared success exactly when its request
is not one whose reply leaves `success` out, or null, and passes every other check. -/
theorem writes_declared_iff (context : Context) (rate : RateTable) (pRequest : Uuid) :
    (∀ after, exchangeRateDone context rate pRequest = .ok after → after ≠ rate →
        Declared context ((context.httpFetch pRequest).getD Fetch.null)) ↔
      ¬ ReplyWrites context rate ((context.httpFetch pRequest).getD Fetch.null) none := by
  constructor
  · intro guarded writes
    have accepted : (none : Option Bool) ≠ some false := (Option.some_ne_none false).symm
    obtain ⟨after, success, changed⟩ :=
      exchangeRateDone_changes_iff.mpr ⟨none, accepted, writes⟩
    exact not_declared_of_replyWrites writes (guarded after success changed)
  · intro declares after success changed
    obtain ⟨declared, accepted, writes⟩ :=
      exchangeRateDone_changes_iff.mp ⟨after, success, changed⟩
    cases declared with
    | none => exact absurd writes declares
    | some truth =>
        cases truth with
        | false => exact absurd rfl accepted
        | true => exact declared_of_replyWrites writes

/-- A reply that does not say whether it is a success. -/
def silentFields : List (String × Jsonb) := [("base", .string "USD"), ("rates", .object plainRates)]

theorem silentFields_uniqueKeys : (Jsonb.object silentFields).UniqueKeys := by
  refine .object _ (by decide) ?_
  intro field member
  simp only [silentFields, List.mem_cons, List.not_mem_nil, or_false] at member
  rcases member with rfl | rfl
  · exact .string _
  · exact plainRates_uniqueKeys

/-- Its rates are written. -/
theorem silent_reply_written :
    ¬ ∀ (context : Context) (rate after : RateTable) (pRequest : Uuid),
      exchangeRateDone context rate pRequest = .ok after → after ≠ rate →
      Declared context ((context.httpFetch pRequest).getD Fetch.null) := by
  intro claim
  have written : firstTable ≠ .empty := fun same => by
    have rows := congrArg (fun table : RateTable => table.rows.card) same
    cases rows
  obtain ⟨_, fields, parses, ⟨text, present, _⟩, _⟩ :=
    claim (replyContext silentFields silentFields_uniqueKeys) .empty firstTable 1 rfl written
  have isReply := parses.unique (replyRuntime_parses silentFields silentFields_uniqueKeys)
  rw [isReply] at present
  cases present

end ApostolRates
