import Mathlib.Algebra.Order.Floor.Ring
import Mathlib.Data.Rat.Floor
import Mathlib.Tactic.Positivity
import Mathlib.Tactic.Ring

/-!
# Decimals

A decimal is an integer over a power of ten.  `truncate` drops the digits of a
number after a place, towards zero, and the digit strings at the end are decimals
in plain notation: the digits of the integer, with enough zeros in front to have
one before the point.
-/

set_option autoImplicit false

namespace Decimal

/-! ## Truncation -/

def fixed (unscaled : ℤ) (scale : ℕ) : ℚ := unscaled / 10 ^ scale

/-- The integer part, towards zero. -/
def wholePart (number : ℚ) : ℤ := if 0 ≤ number then ⌊number⌋ else ⌈number⌉

/-- The number without its digits after the given place. -/
def truncate (places : ℕ) (number : ℚ) : ℚ := fixed (wholePart (number * 10 ^ places)) places

theorem wholePart_of_nonneg {number : ℚ} (nonneg : 0 ≤ number) : wholePart number = ⌊number⌋ :=
  if_pos nonneg

theorem wholePart_neg (number : ℚ) : wholePart (-number) = -wholePart number := by
  unfold wholePart
  rcases lt_trichotomy number 0 with negative | rfl | positive
  · rw [if_pos (neg_nonneg.mpr negative.le), if_neg (not_le.mpr negative), Int.floor_neg]
  · simp
  · rw [if_neg (not_le.mpr (neg_lt_zero.mpr positive)), if_pos positive.le, Int.ceil_neg]

theorem wholePart_intCast (whole : ℤ) : wholePart whole = whole := by
  simp [wholePart]

theorem wholePart_div (dividend : ℤ) (divisor : ℕ) :
    wholePart (dividend / divisor) = dividend.tdiv divisor := by
  rcases le_total 0 dividend with nonneg | nonpos
  · have quotient : (0 : ℚ) ≤ dividend / divisor := by positivity
    rw [wholePart_of_nonneg quotient, Rat.floor_intCast_div_natCast,
      Int.tdiv_eq_ediv_of_nonneg nonneg]
  · have quotient : (0 : ℚ) ≤ (-dividend : ℤ) / divisor := by
      have opposite : (0 : ℤ) ≤ -dividend := neg_nonneg.mpr nonpos
      positivity
    have flipped := wholePart_of_nonneg quotient
    rw [Rat.floor_intCast_div_natCast, ← Int.tdiv_eq_ediv_of_nonneg (neg_nonneg.mpr nonpos),
      Int.neg_tdiv, Int.cast_neg, neg_div, wholePart_neg] at flipped
    exact neg_inj.mp flipped

theorem wholePart_eq_zero_iff (number : ℚ) : wholePart number = 0 ↔ |number| < 1 := by
  rcases le_total 0 number with nonneg | nonpos
  · rw [wholePart_of_nonneg nonneg, abs_of_nonneg nonneg, Int.floor_eq_zero_iff, Set.mem_Ico]
    exact and_iff_right nonneg
  · have opposite : 0 ≤ -number := neg_nonneg.mpr nonpos
    rw [← neg_eq_zero, ← wholePart_neg, wholePart_of_nonneg opposite, abs_of_nonpos nonpos,
      Int.floor_eq_zero_iff, Set.mem_Ico]
    exact and_iff_right opposite

theorem fixed_eq_zero_iff (unscaled : ℤ) (scale : ℕ) : fixed unscaled scale = 0 ↔ unscaled = 0 := by
  simp [fixed]

theorem fixed_mul_pow (unscaled : ℤ) (scale more : ℕ) :
    fixed (unscaled * 10 ^ more) (scale + more) = fixed unscaled scale := by
  unfold fixed
  push_cast
  rw [pow_add, mul_div_mul_right _ _ (by positivity)]

/-- A number is its own truncation when it has no digits after the place. -/
theorem truncate_eq_self_iff (places : ℕ) (number : ℚ) :
    truncate places number = number ↔ ∃ whole : ℤ, number * 10 ^ places = whole := by
  have scaled : (10 : ℚ) ^ places ≠ 0 := by positivity
  rw [truncate, fixed, div_eq_iff scaled]
  constructor
  · intro same
    exact ⟨_, same.symm⟩
  · rintro ⟨whole, same⟩
    rw [same, wholePart_intCast]

theorem truncate_eq_zero_iff (places : ℕ) (number : ℚ) :
    truncate places number = 0 ↔ |number| < 1 / 10 ^ places := by
  have scaled : (0 : ℚ) < 10 ^ places := by positivity
  rw [truncate, fixed_eq_zero_iff, wholePart_eq_zero_iff, abs_mul, abs_of_pos scaled,
    lt_div_iff₀ scaled]

theorem truncate_fixed (places : ℕ) (unscaled : ℤ) (scale : ℕ) :
    truncate places (fixed unscaled scale) =
      fixed (unscaled.tdiv (10 ^ (scale - places))) (min scale places) := by
  have scaled : fixed unscaled scale * 10 ^ places =
      (unscaled * 10 ^ places : ℤ) / ((10 ^ scale : ℕ) : ℚ) := by
    unfold fixed
    push_cast
    ring
  rw [truncate, scaled, wholePart_div]
  push_cast
  rcases le_total places scale with longer | shorter
  · obtain ⟨more, rfl⟩ := Nat.exists_eq_add_of_le longer
    rw [min_eq_right longer, Nat.add_sub_cancel_left, pow_add, mul_comm unscaled,
      Int.mul_tdiv_mul_of_pos _ _ (by positivity)]
  · obtain ⟨more, rfl⟩ := Nat.exists_eq_add_of_le shorter
    rw [min_eq_left shorter, Nat.sub_eq_zero_of_le shorter, pow_zero, Int.tdiv_one, pow_add,
      mul_left_comm, Int.mul_tdiv_cancel_left _ (by positivity), fixed_mul_pow]

/-! ## Digit strings -/

/-- The digits of a number, at least one more than there are places after the point. -/
def paddedDigits (scale number : ℕ) : List Char :=
  List.replicate (scale + 1 - (Nat.toDigits 10 number).length) '0' ++ Nat.toDigits 10 number

theorem isDigit_of_mem_paddedDigits {scale number : ℕ} {char : Char}
    (member : char ∈ paddedDigits scale number) : char.isDigit := by
  rcases List.mem_append.mp member with zero | digit
  · rw [List.eq_of_mem_replicate zero]
    decide
  · exact Nat.isDigit_of_mem_toDigits (by decide) (by decide) digit

theorem ofDigitChars_paddedDigits (scale number : ℕ) :
    Nat.ofDigitChars 10 (paddedDigits scale number) 0 = number := by
  rw [paddedDigits, Nat.ofDigitChars_append, Nat.ofDigitChars_replicate_zero, mul_zero,
    Nat.ofDigitChars_ten_toDigits]

theorem lt_length_paddedDigits (scale number : ℕ) :
    scale < (paddedDigits scale number).length := by
  rw [paddedDigits, List.length_append, List.length_replicate]
  omega

/-- How many digits stand before the point tells how large the number is. -/
theorem length_paddedDigits_le_iff {scale number before : ℕ} (positive : 0 < before) :
    (paddedDigits scale number).length ≤ before + scale ↔ number < 10 ^ (before + scale) := by
  have digits := Nat.length_toDigits_le_iff (n := number) (b := 10) (k := before + scale)
    (by decide) (by omega)
  rw [← digits, paddedDigits, List.length_append, List.length_replicate]
  omega

theorem pow_length_le {scale number : ℕ}
    (long : scale + 1 < (paddedDigits scale number).length) :
    10 ^ ((paddedDigits scale number).length - 1) ≤ number := by
  by_contra small
  have shape : (paddedDigits scale number).length - 1 =
      (paddedDigits scale number).length - 1 - scale + scale := by omega
  rw [not_le, shape] at small
  have shorter := (length_paddedDigits_le_iff (by omega)).mpr small
  omega

theorem toNat_of_isDigit {char : Char} (digit : char.isDigit) :
    48 ≤ char.toNat ∧ char.toNat ≤ 57 := by
  simp only [Char.isDigit, Bool.and_eq_true, decide_eq_true_eq, ge_iff_le] at digit
  exact ⟨UInt32.le_iff_toNat_le.mp digit.1, UInt32.le_iff_toNat_le.mp digit.2⟩

theorem ofDigitChars_lt {digits : List Char} (all : ∀ char ∈ digits, char.isDigit) :
    Nat.ofDigitChars 10 digits 0 < 10 ^ digits.length := by
  induction digits with
  | nil => simp
  | cons char rest ih =>
      have restSmall := ih fun other member => all other (List.mem_cons_of_mem _ member)
      have range := toNat_of_isDigit (all char List.mem_cons_self)
      have base : '0'.toNat = 48 := rfl
      have small : char.toNat - '0'.toNat ≤ 9 := by omega
      rw [Nat.ofDigitChars_cons, Nat.ofDigitChars_eq_ofDigitChars_zero, List.length_cons, pow_succ]
      have bounded := Nat.mul_le_mul_left (10 ^ rest.length) small
      simp only [mul_zero, zero_add]
      omega

theorem ofDigitChars_take {digits : List Char} (all : ∀ char ∈ digits, char.isDigit) (kept : ℕ) :
    Nat.ofDigitChars 10 (digits.take kept) 0 =
      Nat.ofDigitChars 10 digits 0 / 10 ^ (digits.length - kept) := by
  have small : Nat.ofDigitChars 10 (digits.drop kept) 0 < 10 ^ (digits.drop kept).length :=
    ofDigitChars_lt fun char member => all char (List.mem_of_mem_drop member)
  have whole : Nat.ofDigitChars 10 digits 0 =
      10 ^ (digits.length - kept) * Nat.ofDigitChars 10 (digits.take kept) 0 +
        Nat.ofDigitChars 10 (digits.drop kept) 0 := by
    conv_lhs => rw [← List.take_append_drop kept digits, Nat.ofDigitChars_append,
      Nat.ofDigitChars_eq_ofDigitChars_zero, List.length_drop]
  rw [List.length_drop] at small
  rw [whole, Nat.mul_add_div (by positivity), Nat.div_eq_of_lt small, add_zero]

end Decimal
