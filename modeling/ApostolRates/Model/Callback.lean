import ApostolRates.Library.Rollback
import ApostolRates.Model.Jsonb
import ApostolRates.Model.Rate
import ApostolRates.Model.ToNumber

/-!
# The callback of a rate request

`exchange_rate_done` reads a request from the view `http.fetch`, decodes its
response and calls `update_rate` for every entry of `rates` whose key is the code
of a currency.  Its block has an exception handler, so that an error undoes every
change of the block and is not passed on.
-/

set_option autoImplicit false

namespace ApostolRates

open ThreeValued Rollback

/-- The columns of `http.fetch` that the callback uses. -/
structure Fetch where
  agent : Option String
  command : Option String
  status : Option Int
  statusText : Option String
  response : Option (List UInt8)
  deriving DecidableEq

/-- The record that a `SELECT INTO` without a row leaves. -/
def Fetch.null : Fetch := ⟨none, none, none, none, none⟩

/-- The functions that the callback reaches besides its tables: the decoding of the
response, the input functions of `jsonb` and `date`, and the notice about a
failed request, whose arguments may not fit together. -/
structure Runtime where
  convertFrom : List UInt8 → Except PgError String
  jsonbIn : String → Except PgError { json : Jsonb // json.UniqueKeys }
  dateIn : String → Except PgError Date
  failureNotice : Fetch → Except PgError Unit

/-- What the statements of the callback share: the session, the content of the
other tables, and the time the transaction began. -/
structure Context where
  runtime : Runtime
  zone : TimeZone
  currency : CurrencyTable
  httpFetch : Uuid → Option Fetch
  scan : Scan
  now : Timestamptz

/-- A conversion that leaves NULL alone. -/
def strict {α β : Type} (convert : α → Except PgError β) : Option α → Except PgError (Option β)
  | none => .ok none
  | some value => (convert value).map some

section
variable {α β : Type} {convert : α → Except PgError β} {given : Option α}

theorem strict_eq_none : strict convert given = .ok none ↔ given = none := by
  cases given with
  | none => simp [strict]
  | some value => cases outcome : convert value <;> simp [strict, outcome, Except.map]

theorem strict_eq_some {result : β} :
    strict convert given = .ok (some result) ↔
      ∃ value, given = some value ∧ convert value = .ok result := by
  cases given with
  | none => simp [strict]
  | some value => cases outcome : convert value <;> simp [strict, outcome, Except.map]

end

/-- `x(success bool, base text, date date, rates jsonb)`. -/
structure Reply where
  success : Option Bool
  base : Option String
  date : Option Date
  rates : Option Jsonb

/-- `jsonb_to_record` with the columns of `Reply`. -/
def jsonbToRecord (runtime : Runtime) : Option Jsonb → Except PgError Reply
  | none => .ok ⟨none, none, none, none⟩
  | some (.object fields) => do
      let success ← strict Jsonb.boolIn (Jsonb.fieldText "success" fields)
      let date ← strict runtime.dateIn (Jsonb.fieldText "date" fields)
      .ok ⟨success, Jsonb.fieldText "base" fields, date, Jsonb.fieldJsonb "rates" fields⟩
  | some _ => .error .invalidParameterValue

/-- `convert_from(f.response, 'utf8')::jsonb` as a record. -/
def decodeReply (runtime : Runtime) (response : Option (List UInt8)) : Except PgError Reply := do
  let text ← strict runtime.convertFrom response
  let reply ← strict runtime.jsonbIn text
  jsonbToRecord runtime (reply.map Subtype.val)

theorem decodeReply_uniqueKeys {runtime : Runtime} {response : Option (List UInt8)} {r : Reply}
    (decoded : decodeReply runtime response = .ok r) : ∀ json ∈ r.rates, json.UniqueKeys := by
  obtain ⟨text, _, decoded⟩ := except_bind_eq_ok.mp decoded
  obtain ⟨reply, _, decoded⟩ := except_bind_eq_ok.mp decoded
  intro json member
  cases reply with
  | none =>
      cases decoded
      cases member
  | some reply =>
      obtain ⟨reply, unique⟩ := reply
      cases reply with
      | object fields =>
          obtain ⟨success, _, decoded⟩ := except_bind_eq_ok.mp decoded
          obtain ⟨date, _, decoded⟩ := except_bind_eq_ok.mp decoded
          cases decoded
          exact Jsonb.fieldJsonb_uniqueKeys unique member
      | _ => cases decoded

/-- The response decodes to an object with these fields. -/
def Runtime.Parses (runtime : Runtime) (response : Option (List UInt8))
    (fields : List (String × Jsonb)) : Prop :=
  ∃ bytes text unique, response = some bytes ∧ runtime.convertFrom bytes = .ok text ∧
    runtime.jsonbIn text = .ok ⟨.object fields, unique⟩

theorem Runtime.Parses.keys {runtime : Runtime} {response : Option (List UInt8)}
    {fields entries : List (String × Jsonb)} {name : String}
    (parses : runtime.Parses response fields)
    (found : Jsonb.field name fields = some (.object entries)) :
    (entries.map Prod.fst).Nodup := by
  obtain ⟨_, _, unique, _⟩ := parses
  have inner : (Jsonb.object entries).UniqueKeys :=
    Jsonb.fieldJsonb_uniqueKeys unique (Jsonb.fieldJsonb_of_object found)
  cases inner with
  | object _ keys _ => exact keys

theorem decodeReply_of_parses {runtime : Runtime} {response : Option (List UInt8)}
    {fields : List (String × Jsonb)} (parses : runtime.Parses response fields) :
    decodeReply runtime response = jsonbToRecord runtime (some (.object fields)) := by
  obtain ⟨bytes, text, unique, rfl, converted, parsed⟩ := parses
  simp only [decodeReply, strict, converted, parsed, Except.map, bind, Except.bind, Option.map]

theorem Runtime.Parses.unique {runtime : Runtime} {response : Option (List UInt8)}
    {left right : List (String × Jsonb)} (leftParses : runtime.Parses response left)
    (rightParses : runtime.Parses response right) : left = right := by
  obtain ⟨_, _, _, rfl, converted, parsed⟩ := leftParses
  obtain ⟨_, _, _, same, otherConverted, otherParsed⟩ := rightParses
  cases same
  rw [converted] at otherConverted
  cases otherConverted
  rw [parsed] at otherParsed
  cases otherParsed
  rfl

theorem jsonbToRecord_object {runtime : Runtime} {fields : List (String × Jsonb)} {r : Reply} :
    jsonbToRecord runtime (some (.object fields)) = .ok r ↔
      strict Jsonb.boolIn (Jsonb.fieldText "success" fields) = .ok r.success ∧
        strict runtime.dateIn (Jsonb.fieldText "date" fields) = .ok r.date ∧
        r.base = Jsonb.fieldText "base" fields ∧ r.rates = Jsonb.fieldJsonb "rates" fields := by
  rw [jsonbToRecord, except_bind_eq_ok]
  constructor
  · rintro ⟨success, success_ok, rest⟩
    obtain ⟨date, date_ok, same⟩ := except_bind_eq_ok.mp rest
    cases same
    exact ⟨success_ok, date_ok, rfl, rfl⟩
  · rintro ⟨success_ok, date_ok, base, rates⟩
    refine ⟨r.success, success_ok, except_bind_eq_ok.mpr ⟨r.date, date_ok, ?_⟩⟩
    rw [← base, ← rates]

/-- A record with a base comes from an object. -/
theorem decodeReply_object {runtime : Runtime} {response : Option (List UInt8)} {r : Reply}
    (decoded : decodeReply runtime response = .ok r) (based : r.base ≠ none) :
    ∃ fields, runtime.Parses response fields ∧
      jsonbToRecord runtime (some (.object fields)) = .ok r := by
  obtain ⟨text, converted, decodedText⟩ := except_bind_eq_ok.mp decoded
  obtain ⟨reply, parsed, record⟩ := except_bind_eq_ok.mp decodedText
  cases reply with
  | none =>
      cases record
      exact absurd rfl based
  | some reply =>
      obtain ⟨json, unique⟩ := reply
      cases json with
      | object fields =>
          obtain ⟨chars, isText, charsParsed⟩ := strict_eq_some.mp parsed
          rw [isText] at converted
          obtain ⟨bytes, isResponse, bytesConverted⟩ := strict_eq_some.mp converted
          exact ⟨fields, ⟨bytes, chars, unique, isResponse, bytesConverted, charsParsed⟩, record⟩
      | _ => cases record

def loopStep (context : Context) (uCurrencyFrom : Uuid) (rate : RateTable)
    (e : String × Option String) : Except PgError RateTable :=
  match context.currency.selectId (some e.1) with
  | none => .ok rate
  | some uCurrencyTo => do
      let value ← toNumber e.2 rateTemplate
      updateRate context.zone context.currency context.scan rate (some uCurrencyFrom)
        (some uCurrencyTo) value (some context.now)

/-- The statements after the reply has been read. -/
def processReply (context : Context) (rate : RateTable) (r : Reply) :
    Except PgError RateTable :=
  if Holds (negate r.success) then .ok rate
  else
    match context.currency.selectId r.base with
    | none => .ok rate
    | some uCurrencyFrom => do
        let entries ← jsonbEachText r.rates
        entries.foldlM (loopStep context uCurrencyFrom) rate

/-- The conditions under which the response is looked at. -/
def Fetch.IsLatest (f : Fetch) : Prop :=
  Holds (both (equal f.agent (some "api.exchangerate.host")) (equal f.command (some "latest")))

instance (f : Fetch) : Decidable f.IsLatest := inferInstanceAs (Decidable (Holds _))

/-- The block of the routine without its exception handler. -/
def exchangeRateBlock (context : Context) (rate : RateTable) (f : Fetch) :
    Except PgError RateTable :=
  if f.status.getD 0 = 200 then
    if f.IsLatest then do
      let r ← decodeReply context.runtime f.response
      processReply context rate r
    else .ok rate
  else do
    context.runtime.failureNotice f
    .ok rate

/-- `public.exchange_rate_done`. -/
def exchangeRateDone (context : Context) (rate : RateTable) (pRequest : Uuid) :
    Except PgError RateTable :=
  let f := (context.httpFetch pRequest).getD Fetch.null
  .ok (undoing rate (exchangeRateBlock context rate f))

end ApostolRates
