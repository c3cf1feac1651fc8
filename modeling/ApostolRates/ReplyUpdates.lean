import ApostolRates.Exchange

/-!
# What a reply asks for

The callback reads an entry, writes it, and reads the next one.  Reading does not
look at the rate table, so the updates that a reply asks for can be had from the
reply and the currencies alone, and the callback does what it would do if it read
the whole reply first and then wrote all of it.
-/

set_option autoImplicit false

namespace ApostolRates

open ThreeValued ValidTime Rollback

/-! ## Reading first -/

/-- The update of an entry of the rates; a key that names no currency has none. -/
def entryUpdate (context : Context) (uCurrencyFrom : Uuid) (e : String × Option String) :
    Except PgError (Option Update) :=
  match context.currency.selectId (some e.1) with
  | none => .ok none
  | some uCurrencyTo => do
      let value ← toNumber e.2 rateTemplate
      let value ← notNull value
      .ok (some ⟨uCurrencyFrom, uCurrencyTo, value, context.now⟩)

def recordUpdates (context : Context) (r : Reply) : Except PgError (List Update) :=
  if Holds (negate r.success) then .ok []
  else
    match context.currency.selectId r.base with
    | none => .ok []
    | some uCurrencyFrom => do
        let entries ← jsonbEachText r.rates
        collect (entryUpdate context uCurrencyFrom) entries

/-- The updates that a request asks for, or the error that undoes the block. -/
def replyUpdates (context : Context) (f : Fetch) : Except PgError (List Update) :=
  if f.status.getD 0 = 200 then
    if f.IsLatest then do
      let r ← decodeReply context.runtime f.response
      recordUpdates context r
    else .ok []
  else do
    context.runtime.failureNotice f
    .ok []

/-- The calls of `update_rate` that a reply asks for one after the other, also where the
block will not get to the end of them. -/
def recordCalls (context : Context) (r : Reply) : List (Except PgError Update) :=
  if Holds (negate r.success) then []
  else
    match context.currency.selectId r.base with
    | none => []
    | some uCurrencyFrom =>
        match jsonbEachText r.rates with
        | .error failure => [.error failure]
        | .ok entries => attempts (entryUpdate context uCurrencyFrom) entries

/-- The calls of a request; an error that comes before them stands for all. -/
def replyCalls (context : Context) (f : Fetch) : List (Except PgError Update) :=
  if f.status.getD 0 = 200 then
    if f.IsLatest then
      match decodeReply context.runtime f.response with
      | .error failure => [.error failure]
      | .ok r => recordCalls context r
    else []
  else
    match context.runtime.failureNotice f with
    | .error failure => [.error failure]
    | .ok _ => []

def Context.write (context : Context) (rate : RateTable) (update : Update) :
    Except PgError RateTable :=
  update.apply context.zone context.currency context.scan rate

section
variable {context : Context} {uCurrencyFrom : Uuid} {rate after : RateTable}
variable {e : String × Option String}

theorem entryUpdate_unknown (unknown : context.currency.selectId (some e.1) = none) :
    entryUpdate context uCurrencyFrom e = .ok none := by
  simp [entryUpdate, unknown]

theorem entryUpdate_known {uCurrencyTo : Uuid}
    (known : context.currency.selectId (some e.1) = some uCurrencyTo) {update : Option Update} :
    entryUpdate context uCurrencyFrom e = .ok update ↔
      ∃ value, toNumber e.2 rateTemplate = .ok (some value) ∧
        update = some ⟨uCurrencyFrom, uCurrencyTo, value, context.now⟩ := by
  simp only [entryUpdate, known]
  rw [except_bind_eq_ok]
  constructor
  · rintro ⟨parsed, number, rest⟩
    obtain ⟨value, given, same⟩ := except_bind_eq_ok.mp rest
    cases parsed with
    | none => cases given
    | some parsed =>
        cases given
        cases same
        exact ⟨value, number, rfl⟩
  · rintro ⟨value, number, rfl⟩
    exact ⟨some value, number, rfl⟩

theorem loopStep_splits (rate : RateTable) (e : String × Option String) (after : RateTable) :
    loopStep context uCurrencyFrom rate e = .ok after ↔
      ∃ update, entryUpdate context uCurrencyFrom e = .ok update ∧
        perform context.write rate update = .ok after := by
  cases known : context.currency.selectId (some e.1) with
  | none =>
      rw [loopStep_unknown known, entryUpdate_unknown known]
      simp [perform]
  | some uCurrencyTo =>
      rw [loopStep_known known]
      constructor
      · rintro ⟨value, number, applied⟩
        exact ⟨_, (entryUpdate_known known).mpr ⟨value, number, rfl⟩, applied⟩
      · rintro ⟨update, isRead, performed⟩
        obtain ⟨value, number, rfl⟩ := (entryUpdate_known known).mp isRead
        exact ⟨value, number, performed⟩

variable {f : Fetch}

theorem processReply_two_phase {r : Reply} :
    processReply context rate r = .ok after ↔
      ∃ updates, recordUpdates context r = .ok updates ∧
        updates.foldlM context.write rate = .ok after := by
  unfold processReply recordUpdates
  by_cases refused : Holds (negate r.success)
  · simp [refused, pure, Except.pure]
  · simp only [refused, if_false]
    cases context.currency.selectId r.base with
    | none => simp [pure, Except.pure]
    | some uCurrencyFrom =>
        simp only [except_bind_eq_ok]
        constructor
        · rintro ⟨entries, each, looped⟩
          obtain ⟨updates, collected, written⟩ := (loop_two_phase loopStep_splits entries).mp looped
          exact ⟨updates, ⟨entries, each, collected⟩, written⟩
        · rintro ⟨updates, ⟨entries, each, collected⟩, written⟩
          exact ⟨entries, each,
            (loop_two_phase loopStep_splits entries).mpr ⟨updates, collected, written⟩⟩

/-- A block succeeds when the request can be read as updates and all of them succeed. -/
theorem exchangeRateBlock_two_phase :
    exchangeRateBlock context rate f = .ok after ↔
      ∃ updates, replyUpdates context f = .ok updates ∧
        updates.foldlM context.write rate = .ok after := by
  unfold exchangeRateBlock replyUpdates
  by_cases answered : f.status.getD 0 = 200
  · simp only [answered, if_true]
    by_cases isLatest : f.IsLatest
    · simp only [isLatest, if_true, except_bind_eq_ok, processReply_two_phase]
      constructor
      · rintro ⟨r, decoded, updates, recorded, written⟩
        exact ⟨updates, ⟨r, decoded, recorded⟩, written⟩
      · rintro ⟨updates, ⟨r, decoded, recorded⟩, written⟩
        exact ⟨r, decoded, updates, recorded, written⟩
    · simp [isLatest, pure, Except.pure]
  · simp only [answered, if_false, except_bind_eq_ok]
    constructor
    · rintro ⟨notice, noticed, same⟩
      cases same
      exact ⟨[], ⟨notice, noticed, rfl⟩, rfl⟩
    · rintro ⟨updates, ⟨notice, noticed, same⟩, written⟩
      cases same
      cases written
      exact ⟨notice, noticed, rfl⟩

end

/-! ## The updates of a reply -/

section
variable {context : Context} {uCurrencyFrom : Uuid} {e : String × Option String}
variable {update : Update} {updates : List Update} {f : Fetch}

theorem entryUpdate_eq_some :
    entryUpdate context uCurrencyFrom e = .ok (some update) ↔
      ∃ uCurrencyTo value, context.currency.selectId (some e.1) = some uCurrencyTo ∧
        toNumber e.2 rateTemplate = .ok (some value) ∧
        update = ⟨uCurrencyFrom, uCurrencyTo, value, context.now⟩ := by
  cases known : context.currency.selectId (some e.1) with
  | none =>
      rw [entryUpdate_unknown known]
      simp
  | some uCurrencyTo =>
      rw [entryUpdate_known known]
      constructor
      · rintro ⟨value, number, same⟩
        exact ⟨uCurrencyTo, value, rfl, number, Option.some.inj same⟩
      · rintro ⟨_, value, same, number, rfl⟩
        cases same
        exact ⟨value, number, rfl⟩

theorem replyUpdates_collected (asked : replyUpdates context f = .ok updates) :
    updates = [] ∨ ∃ r uCurrencyFrom entries,
      decodeReply context.runtime f.response = .ok r ∧
      context.currency.selectId r.base = some uCurrencyFrom ∧
      jsonbEachText r.rates = .ok entries ∧
      collect (entryUpdate context uCurrencyFrom) entries = .ok updates := by
  unfold replyUpdates at asked
  split at asked
  · split at asked
    · obtain ⟨r, decoded, recorded⟩ := except_bind_eq_ok.mp asked
      unfold recordUpdates at recorded
      split at recorded
      · cases recorded
        exact Or.inl rfl
      · split at recorded
        · cases recorded
          exact Or.inl rfl
        · rename_i uCurrencyFrom base
          obtain ⟨entries, each, collected⟩ := except_bind_eq_ok.mp recorded
          exact Or.inr ⟨r, uCurrencyFrom, entries, decoded, base, each, collected⟩
    · cases asked
      exact Or.inl rfl
  · obtain ⟨_, _, same⟩ := except_bind_eq_ok.mp asked
    cases same
    exact Or.inl rfl

/-- The updates of a reply have one base and known currencies, are dated now, and carry
numbers that were read with the template. -/
theorem replyUpdates_spec (asked : replyUpdates context f = .ok updates) :
    ∃ uCurrencyFrom, ∀ update ∈ updates, update.currencyFrom = uCurrencyFrom ∧
      update.Known context.currency ∧ update.date = context.now ∧
      ∃ text, toNumber text rateTemplate = .ok (some update.value) := by
  rcases replyUpdates_collected asked with rfl | ⟨r, uCurrencyFrom, entries, _, base, _, collected⟩
  · exact ⟨0, fun _ member => absurd member List.not_mem_nil⟩
  · refine ⟨uCurrencyFrom, fun update member => ?_⟩
    obtain ⟨e, _, isRead⟩ := (mem_collect collected).mp member
    obtain ⟨uCurrencyTo, value, known, number, rfl⟩ := entryUpdate_eq_some.mp isRead
    exact ⟨rfl, ⟨CurrencyTable.selectId_references base, CurrencyTable.selectId_references known⟩,
      rfl, e.2, number⟩

theorem attempts_pairs {entries : List (String × Option String)}
    (keys : (entries.map Prod.fst).Nodup) :
    (((attempts (entryUpdate context uCurrencyFrom) entries).filterMap Except.toOption).map
      Update.pair).Nodup := by
  induction entries with
  | nil => exact List.nodup_nil
  | cons e rest ih =>
      rw [List.map_cons, List.nodup_cons] at keys
      have restPairs := ih keys.2
      rw [attempts_cons, List.filterMap_append]
      cases head : entryUpdate context uCurrencyFrom e with
      | error failure => exact restPairs
      | ok first =>
          cases first with
          | none => exact restPairs
          | some update =>
              obtain ⟨uCurrencyTo, value, known, _, rfl⟩ := entryUpdate_eq_some.mp head
              refine List.nodup_cons.mpr ⟨fun member => ?_, restPairs⟩
              obtain ⟨other, otherMember, samePair⟩ := List.mem_map.mp member
              obtain ⟨attempt, attemptMember, isOther⟩ := List.mem_filterMap.mp otherMember
              cases attempt with
              | error failure => cases isOther
              | ok attempt =>
                  cases isOther
                  obtain ⟨otherEntry, entryMember, isRead⟩ := mem_attempts.mp attemptMember
                  obtain ⟨otherTo, _, otherKnown, _, rfl⟩ := entryUpdate_eq_some.mp isRead
                  exact untouched_of_key keys.1 known otherEntry entryMember otherTo otherKnown
                    samePair.symm

theorem filterMap_toOption_ok (updates : List Update) :
    (updates.map Except.ok : List (Except PgError Update)).filterMap Except.toOption = updates := by
  rw [List.filterMap_map]
  exact List.filterMap_some

theorem collect_pairs {entries : List (String × Option String)}
    (keys : (entries.map Prod.fst).Nodup)
    (collected : collect (entryUpdate context uCurrencyFrom) entries = .ok updates) :
    (updates.map Update.pair).Nodup := by
  have pairs := @attempts_pairs context uCurrencyFrom entries keys
  rwa [collect_eq_ok.mp collected, filterMap_toOption_ok] at pairs

theorem replyUpdates_pairs (asked : replyUpdates context f = .ok updates) :
    (updates.map Update.pair).Nodup := by
  rcases replyUpdates_collected asked with rfl |
    ⟨r, uCurrencyFrom, entries, decoded, _, each, collected⟩
  · exact List.nodup_nil
  · exact collect_pairs (jsonbEachText_keys (decodeReply_uniqueKeys decoded) each) collected

theorem replyUpdates_eq_ok :
    replyUpdates context f = .ok updates ↔ replyCalls context f = updates.map .ok := by
  have nothing : ∀ failure : PgError,
      [(.error failure : Except PgError Update)] ≠ updates.map .ok := by
    intro failure same
    cases updates <;> cases same
  have empty : (.ok [] : Except PgError (List Update)) = .ok updates ↔
      ([] : List (Except PgError Update)) = updates.map .ok := by
    cases updates <;> simp
  unfold replyUpdates replyCalls
  split
  · split
    · cases decodeReply context.runtime f.response with
      | error failure => exact iff_of_false (by rintro ⟨⟩) (nothing failure)
      | ok r =>
          change recordUpdates context r = .ok updates ↔ recordCalls context r = updates.map .ok
          unfold recordUpdates recordCalls
          split
          · exact empty
          · cases context.currency.selectId r.base with
            | none => exact empty
            | some uCurrencyFrom =>
                cases jsonbEachText r.rates with
                | error failure => exact iff_of_false (by rintro ⟨⟩) (nothing failure)
                | ok entries => exact collect_eq_ok
    · exact empty
  · cases context.runtime.failureNotice f with
    | error failure => exact iff_of_false (by rintro ⟨⟩) (nothing failure)
    | ok notice => exact empty

def OfOneBase (calls : List (Except PgError Update)) : Prop :=
  ((calls.filterMap Except.toOption).map Update.pair).Nodup ∧
    ∃ base, ∀ update : Update, .ok update ∈ calls → update.currencyFrom = base

theorem ofOneBase_nil : OfOneBase [] :=
  ⟨List.nodup_nil, 0, fun _ member => absurd member List.not_mem_nil⟩

theorem ofOneBase_singleton (attempt : Except PgError Update) : OfOneBase [attempt] := by
  cases attempt with
  | error failure =>
      exact ⟨List.nodup_nil, 0, fun _ member => by cases List.mem_singleton.mp member⟩
  | ok update =>
      refine ⟨List.nodup_singleton _, update.currencyFrom, fun other member => ?_⟩
      cases List.mem_singleton.mp member
      rfl

theorem replyCalls_cases (context : Context) (f : Fetch) :
    replyCalls context f = [] ∨ (∃ failure, replyCalls context f = [.error failure]) ∨
      ∃ r uCurrencyFrom entries, decodeReply context.runtime f.response = .ok r ∧
        context.currency.selectId r.base = some uCurrencyFrom ∧
        jsonbEachText r.rates = .ok entries ∧
        replyCalls context f = attempts (entryUpdate context uCurrencyFrom) entries := by
  unfold replyCalls
  split
  · split
    · cases decoded : decodeReply context.runtime f.response with
      | error failure => exact .inr (.inl ⟨failure, rfl⟩)
      | ok r =>
          dsimp only
          unfold recordCalls
          split
          · exact .inl rfl
          · cases base : context.currency.selectId r.base with
            | none => exact .inl rfl
            | some uCurrencyFrom =>
                dsimp only
                cases each : jsonbEachText r.rates with
                | error failure => exact .inr (.inl ⟨failure, rfl⟩)
                | ok entries =>
                    exact .inr (.inr ⟨r, uCurrencyFrom, entries, rfl, base, each, rfl⟩)
    · exact .inl rfl
  · cases context.runtime.failureNotice f with
    | error failure => exact .inr (.inl ⟨failure, rfl⟩)
    | ok notice => exact .inl rfl

theorem replyCalls_ofOneBase (context : Context) (f : Fetch) :
    OfOneBase (replyCalls context f) := by
  rcases replyCalls_cases context f with none | ⟨failure, one⟩ |
    ⟨r, uCurrencyFrom, entries, decoded, _, each, all⟩
  · exact none ▸ ofOneBase_nil
  · exact one ▸ ofOneBase_singleton _
  · rw [all]
    refine ⟨attempts_pairs (jsonbEachText_keys (decodeReply_uniqueKeys decoded) each),
      uCurrencyFrom, fun update member => ?_⟩
    obtain ⟨e, _, isRead⟩ := mem_attempts.mp member
    obtain ⟨uCurrencyTo, value, _, _, rfl⟩ := entryUpdate_eq_some.mp isRead
    rfl

end

/-! ## The same reply at another time -/

def Update.redate (date : Timestamptz) (update : Update) : Update := { update with date := date }

section
variable {context other : Context}

theorem entryUpdate_redate (sameCurrency : other.currency = context.currency)
    (uCurrencyFrom : Uuid) (e : String × Option String) :
    entryUpdate other uCurrencyFrom e =
      (entryUpdate context uCurrencyFrom e).map (Option.map (Update.redate other.now)) := by
  unfold entryUpdate
  rw [sameCurrency]
  cases context.currency.selectId (some e.1) with
  | none => rfl
  | some uCurrencyTo =>
      cases toNumber e.2 rateTemplate with
      | error failure => rfl
      | ok value => cases value <;> rfl

theorem recordUpdates_redate (sameCurrency : other.currency = context.currency) (r : Reply) :
    recordUpdates other r = (recordUpdates context r).map (List.map (Update.redate other.now)) := by
  unfold recordUpdates
  rw [sameCurrency]
  split
  · rfl
  · cases context.currency.selectId r.base with
    | none => rfl
    | some uCurrencyFrom =>
        cases jsonbEachText r.rates with
        | error failure => rfl
        | ok entries => exact collect_map (entryUpdate_redate sameCurrency uCurrencyFrom) entries

theorem replyUpdates_redate (context other : Context)
    (sameRuntime : other.runtime = context.runtime)
    (sameCurrency : other.currency = context.currency) (f : Fetch) :
    replyUpdates other f = (replyUpdates context f).map (List.map (Update.redate other.now)) := by
  unfold replyUpdates
  rw [sameRuntime]
  split
  · split
    · cases decodeReply context.runtime f.response with
      | error failure => rfl
      | ok r => exact recordUpdates_redate sameCurrency r
    · rfl
  · cases context.runtime.failureNotice f <;> rfl

end

/-! ## The callback -/

/-- The callback is the block in two phases, undone when one of them fails. -/
theorem exchangeRateDone_eq (context : Context) (rate : RateTable) (pRequest : Uuid) :
    exchangeRateDone context rate pRequest =
      .ok (undoing rate (replyUpdates context ((context.httpFetch pRequest).getD Fetch.null) >>=
        fun updates => updates.foldlM context.write rate)) := by
  unfold exchangeRateDone
  refine congrArg Except.ok (undoing_congr (fun after => ?_) rate)
  rw [exchangeRateBlock_two_phase, except_bind_eq_ok]

/-- On every table the callback reads the whole reply and then writes all of its
updates, or leaves the table as it was.  The updates have one base, known currencies,
the present date and a pair each. -/
theorem exchange_reads_then_writes (context : Context) (rate : RateTable) (pRequest : Uuid) :
    exchangeRateDone context rate pRequest =
        .ok (undoing rate (replyUpdates context ((context.httpFetch pRequest).getD Fetch.null) >>=
          fun updates => updates.foldlM context.write rate)) ∧
      ∀ updates, replyUpdates context ((context.httpFetch pRequest).getD Fetch.null) = .ok updates →
        (updates.map Update.pair).Nodup ∧
          ∃ uCurrencyFrom, ∀ update ∈ updates, update.currencyFrom = uCurrencyFrom ∧
            update.Known context.currency ∧ update.date = context.now :=
  ⟨exchangeRateDone_eq context rate pRequest, fun _ asked =>
    ⟨replyUpdates_pairs asked, (replyUpdates_spec asked).imp fun _ each update member =>
      ⟨(each update member).1, (each update member).2.1, (each update member).2.2.1⟩⟩⟩

end ApostolRates
