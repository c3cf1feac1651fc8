import ApostolRates.Library.Decimal
import ApostolRates.Model.Jsonb
import ApostolRates.Model.ToNumber

/-!
# The text of a rate read back

`jsonb_each_text` prints a JSON number in plain decimal notation, and `to_number`
reads one byte of it for each position of the template.  What it reads are the
leading digits of the number, which is why the result is the number truncated to
the fraction digits of the template, or an error when there are more integer
digits than the template has.
-/

set_option autoImplicit false

namespace ApostolRates

open Decimal

/-! ## Digits and points -/

def asciiByte (char : Char) : UInt8 := UInt8.ofNat char.toNat

def IsPlain (char : Char) : Prop := char.isDigit ∨ char = '.'

theorem asciiByte_toNat_of_isDigit {char : Char} (digit : char.isDigit) :
    (asciiByte char).toNat = char.toNat := by
  have range := toNat_of_isDigit digit
  rw [asciiByte, UInt8.toNat_ofNat', Nat.mod_eq_of_lt (by omega)]

theorem IsPlain.toNat_lt {char : Char} (plain : IsPlain char) : char.toNat < 128 := by
  rcases plain with digit | rfl
  · have range := toNat_of_isDigit digit
    omega
  · decide

theorem utf8Bytes_ofList {chars : List Char} (ascii : ∀ char ∈ chars, char.toNat < 128) :
    utf8Bytes (String.ofList chars) = chars.map asciiByte := by
  rw [utf8Bytes, String.toList_ofList]
  induction chars with
  | nil => rfl
  | cons char rest ih =>
      have single : String.utf8EncodeChar char = [asciiByte char] := by
        have small := ascii char List.mem_cons_self
        have below : char.val.toNat ≤ 127 := Nat.le_of_lt_succ small
        rw [String.utf8EncodeChar, if_pos below]
        rfl
      rw [List.flatMap_cons, single, ih fun other member => ascii other
        (List.mem_cons_of_mem _ member)]
      rfl

namespace NumProc

variable {post : Nat} {np : NumProc}

def readChar (post : Nat) (np : NumProc) (char : Char) : NumProc :=
  np.readByte post (asciiByte char)

theorem isDigit_asciiByte {char : Char} (digit : char.isDigit) : isDigit (asciiByte char) := by
  have range := toNat_of_isDigit digit
  rw [← asciiByte_toNat_of_isDigit digit] at range
  simp only [isDigit, Bool.and_eq_true, decide_eq_true_eq, UInt8.le_iff_toNat_le]
  exact range

theorem numpartFromChar_of_ne (pattern : NumPattern) {byte : UInt8} (notSpace : byte ≠ 32)
    (notMinus : byte ≠ 45) (notPlus : byte ≠ 43) (rest : List UInt8) :
    numpartFromChar post pattern np (byte :: rest) = (np.readByte post byte, rest) := by
  by_cases signed : np.sign = .space ∧ pattern ≠ .dec ∧ np.nothingRead = true
  · simp [numpartFromChar, notSpace, notMinus, notPlus, signed]
  · simp [numpartFromChar, notSpace, signed]

theorem numpartFromChar_plain (pattern : NumPattern) {char : Char} (plain : IsPlain char)
    (rest : List UInt8) :
    numpartFromChar post pattern np (asciiByte char :: rest) =
      (np.readChar post char, rest) := by
  rcases plain with digit | rfl
  · have range := toNat_of_isDigit digit
    rw [← asciiByte_toNat_of_isDigit digit] at range
    refine numpartFromChar_of_ne pattern ?_ ?_ ?_ rest <;> intro same <;> rw [same] at range <;>
      revert range <;> decide
  · exact numpartFromChar_of_ne pattern (by decide) (by decide) (by decide) rest

theorem numpartFromChar_minus {pattern : NumPattern} (digits : pattern ≠ .dec)
    (unsigned : np.sign = .space) (nothing : np.nothingRead = true) (byte : UInt8)
    (rest : List UInt8) :
    numpartFromChar post pattern np (45 :: byte :: rest) =
      ({ np with sign := .minus }.readByte post byte, rest) := by
  simp [numpartFromChar, digits, unsigned, nothing]

theorem processor_plain (patterns : List NumPattern) (np : NumProc) {chars : List Char}
    (plain : ∀ char ∈ chars, IsPlain char) :
    processor post patterns np (chars.map asciiByte) =
      (chars.take patterns.length).foldl (readChar post) np := by
  induction patterns generalizing np chars with
  | nil => simp [processor]
  | cons pattern patterns ih =>
      cases chars with
      | nil => rfl
      | cons char chars =>
          have step : numpartFromChar post pattern np (asciiByte char :: chars.map asciiByte) =
              (np.readChar post char, chars.map asciiByte) :=
            numpartFromChar_plain pattern (plain char List.mem_cons_self) _
          rw [List.map_cons, processor, step]
          exact ih _ fun other member => plain other (List.mem_cons_of_mem _ member)

theorem foldl_whole (chars : List Char) (digits : ∀ char ∈ chars, char.isDigit) (np : NumProc)
    (before : np.readDec = false) :
    chars.foldl (readChar post) np =
      { np with
        unscaled := Nat.ofDigitChars 10 chars np.unscaled
        readPre := np.readPre + chars.length } := by
  induction chars generalizing np with
  | nil => rfl
  | cons char chars ih =>
      have digit := digits char List.mem_cons_self
      have read : np.readChar post char =
          { np with
            unscaled := 10 * np.unscaled + (char.toNat - '0'.toNat)
            readPre := np.readPre + 1 } := by
        simp [readChar, readByte, pushDigit, isDigit_asciiByte digit, before,
          asciiByte_toNat_of_isDigit digit, mul_comm]
      have rest := ih (fun other member => digits other (List.mem_cons_of_mem _ member))
        (np.readChar post char) (by rw [read]; exact before)
      rw [List.foldl_cons, rest, read, Nat.ofDigitChars_cons, List.length_cons]
      simp only [NumProc.mk.injEq, true_and, and_true]
      omega

theorem foldl_fraction (chars : List Char) (digits : ∀ char ∈ chars, char.isDigit) (np : NumProc)
    (behind : np.readDec = true) (room : np.readPost ≤ post) :
    chars.foldl (readChar post) np =
      { np with
        unscaled := Nat.ofDigitChars 10 (chars.take (post - np.readPost)) np.unscaled
        readPost := min (np.readPost + chars.length) post } := by
  induction chars generalizing np with
  | nil => simp [min_eq_left room]
  | cons char chars ih =>
      have digit := digits char List.mem_cons_self
      have ih := ih fun other member => digits other (List.mem_cons_of_mem _ member)
      rw [List.foldl_cons]
      by_cases full : np.readPost = post
      · have read : np.readChar post char = np := by
          simp [readChar, readByte, isDigit_asciiByte digit, behind, full]
        rw [read, ih np behind room, full]
        simp
      · have read : np.readChar post char =
            { np with
              unscaled := 10 * np.unscaled + (char.toNat - '0'.toNat)
              readPost := np.readPost + 1 } := by
          simp [readChar, readByte, pushDigit, isDigit_asciiByte digit, behind, full,
            asciiByte_toNat_of_isDigit digit, mul_comm]
        have rest := ih (np.readChar post char) (by rw [read]; exact behind)
          (by rw [read]; exact Nat.lt_of_le_of_ne room full)
        have more : post - np.readPost = (post - (np.readPost + 1)) + 1 := by omega
        rw [rest, read, more, List.take_succ_cons, Nat.ofDigitChars_cons, List.length_cons]
        simp only [NumProc.mk.injEq, true_and, and_true]
        omega

/-- Plain notation of a digit string: the point stands before the last `scale` digits. -/
def plainChars (scale : Nat) (digits : List Char) : List Char :=
  digits.take (digits.length - scale) ++
    if scale = 0 then [] else '.' :: digits.drop (digits.length - scale)

theorem isPlain_of_mem_plainChars {scale : Nat} {digits : List Char}
    (all : ∀ char ∈ digits, char.isDigit) :
    ∀ char ∈ plainChars scale digits, IsPlain char := by
  intro char member
  rcases List.mem_append.mp member with whole | behind
  · exact Or.inl (all char (List.mem_of_mem_take whole))
  · split at behind
    · exact absurd behind List.not_mem_nil
    · rcases List.mem_cons.mp behind with rfl | fraction
      · exact Or.inr rfl
      · exact Or.inl (all char (List.mem_of_mem_drop fraction))

/-! What a number of positions takes of plain notation: it may end before the point,
there may be no point, or some positions are left for the fraction. -/

theorem take_plainChars_of_le {scale positions : Nat} {digits : List Char}
    (short : positions ≤ digits.length - scale) :
    (plainChars scale digits).take positions = digits.take positions := by
  have inside : positions ≤ (digits.take (digits.length - scale)).length := by
    rw [List.length_take]
    omega
  rw [plainChars, List.take_append_of_le_length inside, List.take_take, min_eq_left short]

theorem plainChars_zero (digits : List Char) : plainChars 0 digits = digits := by
  rw [plainChars, if_pos rfl, List.append_nil, Nat.sub_zero, List.take_length]

theorem take_plainChars_add {scale : Nat} (hasPoint : scale ≠ 0) (digits : List Char) (left : Nat) :
    (plainChars scale digits).take (digits.length - scale + left + 1) =
      digits.take (digits.length - scale) ++
        '.' :: (digits.drop (digits.length - scale)).take left := by
  have wholeLength : (digits.take (digits.length - scale)).length = digits.length - scale := by
    rw [List.length_take]
    omega
  rw [plainChars, if_neg hasPoint, List.take_append, List.take_of_length_le (by omega), wholeLength,
    Nat.add_assoc, Nat.add_sub_cancel_left, List.take_succ_cons]

theorem readChar_point (before : np.readDec = false) :
    np.readChar post '.' = { np with readDec := true } := by
  have byte : asciiByte '.' = 46 := rfl
  simp [readChar, readByte, byte, before, isDigit]

/-- From the plain notation of a digit string the processor reads leading digits:
as many before the point as it has positions, and after the point as many as the
positions that are left and the places of the template allow. -/
theorem processor_plainChars (post : Nat) (patterns : List NumPattern) (sign : NumSign)
    {scale : Nat} {digits : List Char} (all : ∀ char ∈ digits, char.isDigit)
    (inside : scale ≤ digits.length) :
    ∃ readPre readPost readDec,
      readPre = min (digits.length - scale) patterns.length ∧
      readPost = min (min scale post) (patterns.length - 1 - (digits.length - scale)) ∧
      processor post patterns ⟨sign, 0, 0, 0, false⟩ ((plainChars scale digits).map asciiByte) =
        ⟨sign, Nat.ofDigitChars 10 (digits.take (readPre + readPost)) 0, readPre, readPost,
          readDec⟩ := by
  rw [processor_plain patterns _ (isPlain_of_mem_plainChars all)]
  have wholeDigits : ∀ count, ∀ char ∈ digits.take count, char.isDigit :=
    fun _ char member => all char (List.mem_of_mem_take member)
  rcases Nat.lt_or_ge (digits.length - scale) patterns.length with fits | short
  · by_cases noPoint : scale = 0
    · refine ⟨digits.length, 0, false, by omega, by omega, ?_⟩
      rw [noPoint, plainChars_zero, List.take_of_length_le (by omega), foldl_whole _ all _ rfl]
      simp
    · obtain ⟨left, positions⟩ := Nat.exists_eq_add_of_lt fits
      have fraction : ∀ char ∈ (digits.drop (digits.length - scale)).take left, char.isDigit :=
        fun char member => all char (List.mem_of_mem_drop (List.mem_of_mem_take member))
      have wholeLength : (digits.take (digits.length - scale)).length = digits.length - scale := by
        rw [List.length_take]
        omega
      have restLength : (digits.drop (digits.length - scale)).length = scale := by
        rw [List.length_drop]
        omega
      refine ⟨digits.length - scale, min (min scale post) left, true, by omega, by omega, ?_⟩
      rw [positions, take_plainChars_add noPoint, List.foldl_append,
        foldl_whole _ (wholeDigits _) _ rfl, List.foldl_cons, readChar_point rfl,
        foldl_fraction _ fraction _ rfl (Nat.zero_le post), wholeLength]
      simp only [NumProc.mk.injEq, true_and, and_true, Nat.zero_add, Nat.sub_zero,
        List.length_take, restLength]
      refine ⟨?_, by omega⟩
      rw [← Nat.ofDigitChars_append, List.take_take, List.take_add]
      congr 2
      rw [List.take_eq_take_iff, restLength]
      omega
  · -- the template ends before the point
    refine ⟨patterns.length, 0, false, by omega, by omega, ?_⟩
    rw [take_plainChars_of_le short, foldl_whole _ (wholeDigits _) _ rfl, List.length_take]
    simp only [NumProc.mk.injEq, true_and, and_true, Nat.add_zero, Nat.zero_add]
    omega

end NumProc

/-! ## The text of a JSON number -/

theorem decimalText_eq (unscaled : Int) (scale : Nat) :
    Jsonb.decimalText unscaled scale =
      String.ofList ((if unscaled < 0 then ['-'] else []) ++
        NumProc.plainChars scale (paddedDigits scale unscaled.natAbs)) := by
  unfold Jsonb.decimalText
  simp only [List.append_assoc]
  rfl

theorem processor_decimalText (post : Nat) (pattern : NumPattern) (patterns : List NumPattern)
    (digits : pattern ≠ .dec) (unscaled : Int) (scale : Nat) :
    NumProc.processor post (pattern :: patterns) .start
        (utf8Bytes (Jsonb.decimalText unscaled scale)) =
      NumProc.processor post (pattern :: patterns)
        ⟨if unscaled < 0 then .minus else .space, 0, 0, 0, false⟩
        ((NumProc.plainChars scale (paddedDigits scale unscaled.natAbs)).map asciiByte) := by
  have plain : ∀ char ∈ NumProc.plainChars scale (paddedDigits scale unscaled.natAbs),
      IsPlain char :=
    NumProc.isPlain_of_mem_plainChars fun _ member => isDigit_of_mem_paddedDigits member
  have ascii : ∀ char ∈ (if unscaled < 0 then ['-'] else []) ++
      NumProc.plainChars scale (paddedDigits scale unscaled.natAbs), char.toNat < 128 := by
    intro char member
    rcases List.mem_append.mp member with minus | rest
    · split at minus
      · rw [List.mem_singleton.mp minus]
        decide
      · exact absurd minus List.not_mem_nil
    · exact (plain char rest).toNat_lt
  rw [decimalText_eq, utf8Bytes_ofList ascii]
  split
  · cases shape : NumProc.plainChars scale (paddedDigits scale unscaled.natAbs) with
    | nil =>
        have inside := lt_length_paddedDigits scale unscaled.natAbs
        have none := congrArg List.length (List.append_eq_nil_iff.mp shape).1
        rw [List.length_take, List.length_nil] at none
        omega
    | cons char chars =>
        have isPlain := plain char (by rw [shape]; exact List.mem_cons_self)
        have minus : asciiByte '-' = 45 := rfl
        rw [List.singleton_append, List.map_cons, List.map_cons, minus, NumProc.processor,
          NumProc.processor, NumProc.numpartFromChar_minus digits rfl rfl,
          NumProc.numpartFromChar_plain pattern isPlain]
        rfl
  · rfl

theorem signed_div (unscaled : Int) (divisor : Nat) :
    (if unscaled < 0 then -((unscaled.natAbs / divisor : Nat) : Int)
      else ((unscaled.natAbs / divisor : Nat) : Int)) = unscaled.tdiv divisor := by
  split
  · rename_i negative
    obtain ⟨magnitude, rfl⟩ := Int.exists_eq_neg_ofNat negative.le
    rw [Int.natAbs_neg, Int.natAbs_natCast, Int.neg_tdiv, Int.ofNat_tdiv]
  · rename_i nonneg
    obtain ⟨magnitude, rfl⟩ := Int.eq_ofNat_of_zero_le (not_lt.mp nonneg)
    rw [Int.natAbs_natCast, Int.ofNat_tdiv]

theorem templatePre_rateTemplate : templatePre rateTemplate = 9 := by decide

theorem templatePost_rateTemplate : templatePost rateTemplate = 8 := by decide

/-- The eighteen positions of the template read leading digits of the number. -/
theorem toNumber_reads (unscaled : Int) (scale : Nat) :
    ∃ readPre readPost readDec,
      readPre = min ((paddedDigits scale unscaled.natAbs).length - scale) 18 ∧
      readPost = min (min scale 8)
        (17 - ((paddedDigits scale unscaled.natAbs).length - scale)) ∧
      toNumber (some (Jsonb.decimalText unscaled scale)) rateTemplate =
        (NumProc.numericIn 9 ⟨if unscaled < 0 then .minus else .space,
          unscaled.natAbs / 10 ^ ((paddedDigits scale unscaled.natAbs).length -
            (readPre + readPost)), readPre, readPost, readDec⟩).map some := by
  have all : ∀ char ∈ paddedDigits scale unscaled.natAbs, char.isDigit :=
    fun _ member => isDigit_of_mem_paddedDigits member
  obtain ⟨readPre, readPost, readDec, pre, post, read⟩ :=
    NumProc.processor_plainChars 8 rateTemplate (if unscaled < 0 then .minus else .space) all
      (lt_length_paddedDigits scale unscaled.natAbs).le
  have signed : NumProc.processor 8 rateTemplate .start
      (utf8Bytes (Jsonb.decimalText unscaled scale)) = _ :=
    processor_decimalText 8 .nine rateTemplate.tail (by decide) unscaled scale
  have shape : NumPattern.nine :: rateTemplate.tail = rateTemplate := rfl
  rw [ofDigitChars_take all, ofDigitChars_paddedDigits] at read
  rw [shape, read] at signed
  refine ⟨readPre, readPost, readDec, pre, post, ?_⟩
  rw [toNumber, templatePre_rateTemplate, templatePost_rateTemplate, signed]

/-- A number that needs more than nine integer digits is out of range, and of the
others everything after the eighth fraction digit is dropped. -/
theorem toNumber_decimalText (unscaled : Int) (scale : Nat) :
    toNumber (some (Jsonb.decimalText unscaled scale)) rateTemplate =
      if 10 ^ (9 + scale) ≤ unscaled.natAbs then .error .numericValueOutOfRange
      else .ok (some (.finite (unscaled.tdiv (10 ^ (scale - 8))) (min scale 8))) := by
  have inside := lt_length_paddedDigits scale unscaled.natAbs
  obtain ⟨readPre, readPost, readDec, pre, post, number⟩ := toNumber_reads unscaled scale
  have started : (readPre + readPost == 0) = false := by
    rw [beq_eq_false_iff_ne]
    omega
  rw [number, NumProc.numericIn, NumProc.nothingRead, started, if_neg Bool.false_ne_true]
  by_cases large : 10 ^ (9 + scale) ≤ unscaled.natAbs
  · have long : ¬ (paddedDigits scale unscaled.natAbs).length ≤ 9 + scale := fun short =>
      absurd ((length_paddedDigits_le_iff (by decide)).mp short) (not_lt.mpr large)
    have least : 10 ^ ((paddedDigits scale unscaled.natAbs).length - 1) ≤ unscaled.natAbs :=
      pow_length_le (by omega)
    have outOfRange : 10 ^ (9 + readPost) ≤ unscaled.natAbs /
        10 ^ ((paddedDigits scale unscaled.natAbs).length - (readPre + readPost)) := by
      rw [Nat.le_div_iff_mul_le (by positivity), ← pow_add]
      exact (Nat.pow_le_pow_right (by decide) (by omega)).trans least
    rw [if_pos large, if_pos outOfRange]
    rfl
  · have short := (length_paddedDigits_le_iff (by decide)).mpr (not_le.mp large)
    have dropped : (paddedDigits scale unscaled.natAbs).length - (readPre + readPost) =
        scale - 8 := by omega
    have places : readPost = min scale 8 := by omega
    have inRange : ¬ 10 ^ (9 + readPost) ≤ unscaled.natAbs / 10 ^ (scale - 8) := by
      rw [not_le, Nat.div_lt_iff_lt_mul (by positivity), ← pow_add]
      have exponents : 9 + readPost + (scale - 8) = 9 + scale := by omega
      rw [exponents]
      exact not_le.mp large
    have signed := signed_div unscaled (10 ^ (scale - 8))
    rw [Nat.cast_pow, Nat.cast_ofNat] at signed
    rw [if_neg large, dropped, if_neg inRange, places, ← signed]
    split <;> rfl

/-- The number a `numeric` stands for. -/
def Numeric.rational : Numeric → Option ℚ
  | .finite unscaled scale => some (fixed unscaled scale)
  | _ => none

/-- What is read from a JSON number is that number truncated to eight places. -/
theorem toNumber_number {unscaled : Int} {scale : Nat} {value : Numeric}
    (parsed : toNumber (Jsonb.number unscaled scale).asText rateTemplate = .ok (some value)) :
    |fixed unscaled scale| < 10 ^ 9 ∧
      value.rational = some (truncate 8 (fixed unscaled scale)) := by
  have text : (Jsonb.number unscaled scale).asText = some (Jsonb.decimalText unscaled scale) := by
    simp [Jsonb.asText, Jsonb.toCString]
  rw [text, toNumber_decimalText] at parsed
  split at parsed
  · cases parsed
  · rename_i fits
    cases parsed
    refine ⟨?_, by rw [truncate_fixed]; rfl⟩
    rw [fixed, abs_div, abs_pow, abs_of_pos (by norm_num : (0 : ℚ) < 10),
      div_lt_iff₀ (by positivity), ← pow_add, ← Int.cast_abs, Int.abs_eq_natAbs]
    exact_mod_cast not_le.mp fits

end ApostolRates
