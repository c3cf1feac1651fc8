import ApostolRates.Model.Types

/-!
# `to_number`

`to_number` walks over a template and reads the text along with it: at each digit
or point of the template it looks at one byte of the text, after a space if there
is one and, before the first digit, after a sign.  Bytes that fit nothing are
passed over.  What was read goes through the input function of `numeric` with the
integer digits of the template and the fraction digits that were read.
-/

set_option autoImplicit false

namespace ApostolRates

/-- A position of a template without sign, group or locale patterns. -/
inductive NumPattern where
  | nine
  | zero
  | dec
  deriving DecidableEq, Repr

/-- `'999999990.00999999'`. -/
def rateTemplate : List NumPattern :=
  [.nine, .nine, .nine, .nine, .nine, .nine, .nine, .nine, .zero, .dec,
    .zero, .zero, .nine, .nine, .nine, .nine, .nine, .nine]

/-- Digits of a template before its point. -/
def templatePre (template : List NumPattern) : Nat :=
  (template.takeWhile fun pattern => pattern ≠ .dec).length

/-- Digits of a template after its point. -/
def templatePost (template : List NumPattern) : Nat :=
  ((template.dropWhile fun pattern => pattern ≠ .dec).filter fun pattern =>
    pattern ≠ .dec).length

inductive NumSign where
  | space
  | plus
  | minus
  deriving DecidableEq, Repr

/-- The number read so far: its digits as one integer, and how many of them came
before and after the point. -/
structure NumProc where
  sign : NumSign
  unscaled : Nat
  readPre : Nat
  readPost : Nat
  readDec : Bool
  deriving DecidableEq, Repr

namespace NumProc

def start : NumProc := ⟨.space, 0, 0, 0, false⟩

def isDigit (byte : UInt8) : Bool := 48 ≤ byte && byte ≤ 57

def pushDigit (np : NumProc) (byte : UInt8) : NumProc :=
  { np with
    unscaled := np.unscaled * 10 + (byte.toNat - 48)
    readPre := if np.readDec then np.readPre else np.readPre + 1
    readPost := if np.readDec then np.readPost + 1 else np.readPost }

def nothingRead (np : NumProc) : Bool := np.readPre + np.readPost == 0

/-- The byte a pattern comes to after its space and its sign. -/
def readByte (post : Nat) (np : NumProc) (byte : UInt8) : NumProc :=
  if isDigit byte then
    if np.readDec && np.readPost == post then np else np.pushDigit byte
  else if byte == 46 && !np.readDec then { np with readDec := true }
  else np

/-- `NUM_numpart_from_char` and the step to the next byte. -/
def numpartFromChar (post : Nat) (pattern : NumPattern) (np : NumProc) (input : List UInt8) :
    NumProc × List UInt8 :=
  let input := match input with
    | 32 :: rest => rest
    | _ => input
  let (np, input) :=
    if np.sign = .space ∧ pattern ≠ .dec ∧ np.nothingRead = true then
      match input with
      | 45 :: rest => ({ np with sign := .minus }, rest)
      | 43 :: rest => ({ np with sign := .plus }, rest)
      | _ => (np, input)
    else (np, input)
  match input with
  | [] => (np, [])
  | byte :: rest => (np.readByte post byte, rest)

/-- `NUM_processor`; it stops with the template or with the text. -/
def processor (post : Nat) : List NumPattern → NumProc → List UInt8 → NumProc
  | [], np, _ => np
  | _ :: _, np, [] => np
  | pattern :: patterns, np, byte :: rest =>
      let (next, input) := np.numpartFromChar post pattern (byte :: rest)
      processor post patterns next input

/-- The input function of `numeric(pre + read_post, read_post)` on what was read. -/
def numericIn (pre : Nat) (np : NumProc) : Except PgError Numeric :=
  if np.nothingRead then .error .invalidTextRepresentation
  else if 10 ^ (pre + np.readPost) ≤ np.unscaled then .error .numericValueOutOfRange
  else
    let magnitude : Int := np.unscaled
    .ok (.finite (if np.sign = .minus then -magnitude else magnitude) np.readPost)

end NumProc

def utf8Bytes (text : String) : List UInt8 := text.toList.flatMap String.utf8EncodeChar

/-- `to_number(value, template)`; NULL gives NULL. -/
def toNumber (value : Option String) (template : List NumPattern) :
    Except PgError (Option Numeric) :=
  match value with
  | none => .ok none
  | some text =>
      ((NumProc.start.processor (templatePost template) template (utf8Bytes text)).numericIn
        (templatePre template)).map some

end ApostolRates
