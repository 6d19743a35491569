import Dialects.Double.Decimal
import Dialects.Proofs.Text

/-!
# Numerals

The positional numeral of a decimal is digits with maybe a fraction. Reading it gives a decimal of
the same value.
-/

namespace Dialects

open Dialects.Text (Stops takeWhile_append_of_stops dropWhile_append_of_stops)

def IsDigits (cs : List Char) : Prop := cs ≠ [] ∧ ∀ c ∈ cs, c.isDigit

/-- Whether a text is nothing, or a point and digits. -/
def IsFraction (cs : List Char) : Prop := cs = [] ∨ ∃ digits, IsDigits digits ∧ cs = '.' :: digits

def IsNumeral (cs : List Char) : Prop :=
  ∃ whole part, IsDigits whole ∧ IsFraction part ∧ cs = whole ++ part

def IsSign (cs : List Char) : Prop := cs = [] ∨ cs = ['-'] ∨ cs = ['+']

/-- Whether a text is nothing, or an exponent mark, maybe a sign, and digits. -/
def IsExponent (cs : List Char) : Prop :=
  cs = [] ∨ ∃ mark sign digits, (mark = 'e' ∨ mark = 'E') ∧ IsSign sign ∧ IsDigits digits ∧
    cs = mark :: (sign ++ digits)

theorem IsDigits.append {cs ds : List Char} (h : IsDigits cs) (hd : ∀ c ∈ ds, c.isDigit) :
    IsDigits (cs ++ ds) := by
  refine ⟨by simp [h.1], ?_⟩
  intro c hc
  rcases List.mem_append.mp hc with hc | hc
  · exact h.2 c hc
  · exact hd c hc

theorem ne_sign_of_isDigit {c : Char} (h : c.isDigit) : c ≠ '-' ∧ c ≠ '+' := by
  constructor <;> rintro rfl <;> simp [Char.isDigit] at h

theorem IsExponent.stops_isDigit {cs : List Char} (h : IsExponent cs) : Stops Char.isDigit cs := by
  obtain rfl | ⟨mark, sign, digits, rfl | rfl, -, -, rfl⟩ := h <;> simp [Char.isDigit]

namespace Decimal

/-! ## Digits -/

theorem isDigits_digits (n : Nat) : IsDigits (digits n) :=
  ⟨Nat.toDigits_ne_nil, fun _ hc => Nat.isDigit_of_mem_toDigits (by decide) (by decide) hc⟩

theorem digitsValue_digits (n : Nat) : digitsValue (digits n) = n := Nat.ofDigitChars_ten_toDigits

theorem digitCount_le_iff {n k : Nat} (h : 0 < k) : digitCount n ≤ k ↔ n < 10 ^ k :=
  Nat.length_toDigits_le_iff (by decide) h

theorem digitCount_mul_pow {n : Nat} (h : 0 < n) (k : Nat) :
    digitCount (n * 10 ^ k) = digitCount n + k := by
  induction k with
  | zero => simp
  | succ k ih =>
    have hpos : 0 < n * 10 ^ k := by positivity
    have hstep := Nat.toDigits_append_toDigits (b := 10) (d := 0) (by decide) hpos (by decide)
    rw [pow_succ, ← mul_assoc, mul_comm, digitCount, digits, ← Nat.add_zero (10 * _), ← hstep,
      List.length_append, Nat.toDigits_zero]
    simp only [digitCount, digits] at ih
    simp only [ih, List.length_singleton, digitCount, digits]
    omega

/-! ## Reading -/

theorem ofNumeral?_whole {whole : List Char} (h : IsDigits whole) :
    ofNumeral? whole = some ⟨digitsValue whole, 0⟩ := by
  have htake : whole.takeWhile Char.isDigit = whole := List.takeWhile_eq_self_iff.mpr h.2
  have hdrop : whole.dropWhile Char.isDigit = [] := List.dropWhile_eq_nil_iff.mpr h.2
  simp [ofNumeral?, htake, hdrop, fraction, exponent?, h.1]

theorem ofNumeral?_point {whole part : List Char} (hw : IsDigits whole) (hp : IsDigits part) :
    ofNumeral? (whole ++ '.' :: part) = some ⟨digitsValue (whole ++ part), -(part.length : Int)⟩ := by
  have hstop : Stops Char.isDigit ('.' :: part) := by simp [Char.isDigit]
  have htake : part.takeWhile Char.isDigit = part := List.takeWhile_eq_self_iff.mpr hp.2
  have hdrop : part.dropWhile Char.isDigit = [] := List.dropWhile_eq_nil_iff.mpr hp.2
  simp [ofNumeral?, takeWhile_append_of_stops hw.2 hstop, dropWhile_append_of_stops hw.2 hstop,
    fraction, htake, hdrop, exponent?, hw.1]

/-! ## Writing -/

theorem text_of_nonneg {d : Decimal} (h : 0 ≤ d.exponent) :
    d.text = digits d.coefficient ++ List.replicate d.exponent.toNat '0' := by
  simp [text, h]

theorem text_of_neg {d : Decimal} (h : d.exponent < 0) :
    ∃ whole part, IsDigits whole ∧ IsDigits part ∧ d.text = whole ++ '.' :: part ∧
      digitsValue (whole ++ part) = d.coefficient ∧ -(part.length : Int) = d.exponent := by
  let places := (-d.exponent).toNat
  -- Zeros in front make sure of a digit before the point.
  let padded := List.replicate (places + 1 - (digits d.coefficient).length) '0' ++
    digits d.coefficient
  have hlen : places < padded.length := by
    simp only [padded, List.length_append, List.length_replicate]
    omega
  have hall : ∀ c ∈ padded, c.isDigit := by
    intro c hc
    rcases List.mem_append.mp hc with hc | hc
    · rw [List.eq_of_mem_replicate hc]
      decide
    · exact (isDigits_digits _).2 c hc
  refine ⟨padded.take (padded.length - places), padded.drop (padded.length - places),
    ⟨?_, fun c hc => hall c (List.mem_of_mem_take hc)⟩,
    ⟨?_, fun c hc => hall c (List.mem_of_mem_drop hc)⟩, ?_, ?_, ?_⟩
  · simp only [ne_eq, List.take_eq_nil_iff, not_or]
    exact ⟨by omega, List.ne_nil_of_length_pos (by omega)⟩
  · simp only [ne_eq, List.drop_eq_nil_iff]
    omega
  · rw [text, if_neg (by omega)]
  · rw [List.take_append_drop, digitsValue, Nat.ofDigitChars_append,
      Nat.ofDigitChars_replicate_zero, Nat.mul_zero]
    exact digitsValue_digits _
  · simp only [List.length_drop]
    omega

theorem isNumeral_text (d : Decimal) : IsNumeral d.text := by
  by_cases h : 0 ≤ d.exponent
  · refine ⟨d.text, [], ?_, .inl rfl, by simp⟩
    rw [text_of_nonneg h]
    refine (isDigits_digits _).append ?_
    intro c hc
    rw [List.eq_of_mem_replicate hc]
    decide
  · obtain ⟨whole, part, hw, hp, htext, -, -⟩ := text_of_neg (show d.exponent < 0 by omega)
    exact ⟨whole, '.' :: part, hw, .inr ⟨part, hp, rfl⟩, htext⟩

theorem nearestMagnitude_mul_pow (c k : Nat) :
    (⟨c * 10 ^ k, 0⟩ : Decimal).nearestMagnitude = (⟨c, k⟩ : Decimal).nearestMagnitude := by
  rcases Nat.eq_zero_or_pos c with rfl | hc
  · simp [nearestMagnitude]
  · have hzero : c * 10 ^ k = 0 ↔ c = 0 := by simp
    simp only [nearestMagnitude, digitCount_mul_pow hc, beq_iff_eq, Bool.or_eq_true, hzero,
      Nat.pow_eq, Int.toNat_natCast, Int.toNat_neg_natCast]
    push_cast
    simp

theorem ofNumeral?_text (d : Decimal) :
    ∃ e : Decimal, ofNumeral? d.text = some e ∧ e.nearestMagnitude = d.nearestMagnitude := by
  by_cases h : 0 ≤ d.exponent
  · -- The zeros that an exponent is written as become digits of the coefficient.
    obtain ⟨k, hk⟩ := Int.eq_ofNat_of_zero_le h
    obtain ⟨c, e⟩ := d
    simp only at hk
    subst hk
    have hzeros : ∀ d ∈ List.replicate k '0', d.isDigit := by
      intro d hd
      rw [List.eq_of_mem_replicate hd]
      decide
    refine ⟨⟨c * 10 ^ k, 0⟩, ?_, nearestMagnitude_mul_pow c k⟩
    rw [text_of_nonneg h, Int.toNat_natCast,
      ofNumeral?_whole ((isDigits_digits _).append hzeros), digitsValue, Nat.ofDigitChars_append,
      Nat.ofDigitChars_replicate_zero]
    simp only [digits, Nat.ofDigitChars_ten_toDigits, mul_comm]
  · obtain ⟨whole, part, hw, hp, htext, hvalue, hplaces⟩ :=
      text_of_neg (show d.exponent < 0 by omega)
    refine ⟨d, ?_, rfl⟩
    rw [htext, ofNumeral?_point hw hp, hvalue, hplaces]

end Decimal

end Dialects
