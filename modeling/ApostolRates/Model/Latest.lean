import ApostolRates.Library.ThreeValued
import ApostolRates.Model.Jsonb

/-!
# The rates endpoint

The branch `latest` of `http.get`, which answers the requests that the callback is
for, as the article lists it.
-/

set_option autoImplicit false

namespace ApostolRates

open ThreeValued

structure Quote where
  code : String
  unscaled : Int
  scale : Nat

def Quote.field (quote : Quote) : String × Jsonb :=
  (quote.code, .number quote.unscaled quote.scale)

/-- A text argument of `jsonb_build_object`. -/
def textJson : Option String → Jsonb
  | some text => .string text
  | none => .null

/-- `trunc(extract(EPOCH FROM now()))`. -/
def epochSeconds (now : Timestamptz) : Int := (now.micros + 946684800000000).tdiv 1000000

/-- A reply with `success`; `jsonb` keeps shorter keys before longer ones. -/
def latestReply (now : Timestamptz) (base : Option String) (date : String)
    (quotes : List Quote) : List (String × Jsonb) :=
  [("base", textJson base), ("date", .string date),
    ("rates", .object (quotes.map Quote.field)), ("success", .bool true),
    ("timestamp", .number (epochSeconds now) 0)]

/-- `x(base text, symbols text)`. -/
structure LatestParams where
  base : Option String
  symbols : Option String

def latestParams : Option Jsonb → Except PgError LatestParams
  | none => .ok ⟨none, none⟩
  | some (.object fields) => .ok ⟨Jsonb.fieldText "base" fields, Jsonb.fieldText "symbols" fields⟩
  | some _ => .error .invalidParameterValue

/-- `WHEN 'latest'` of `http.get`, where `date` is `to_char(now(), 'YYYY-MM-DD')`.  For any
other base the object that should say so is built of three arguments, which is an error. -/
def httpGetLatest (now : Timestamptz) (date : String) (params : Option Jsonb) :
    Except PgError (List (String × Jsonb)) := do
  let r ← latestParams params
  if Holds (equal r.base (some "USD")) then
    .ok (latestReply now r.base date [⟨"BTC", 38, 6⟩, ⟨"EUR", 946739, 6⟩, ⟨"RUB", 96245026, 6⟩])
  else if Holds (equal r.base (some "BTC")) then
    .ok (latestReply now r.base date
      [⟨"EUR", 2501295, 2⟩, ⟨"RUB", 25428032, 1⟩, ⟨"USD", 264201, 1⟩])
  else .error .invalidParameterValue

end ApostolRates
