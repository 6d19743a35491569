import Mathlib
import Dialects.Double.Decimal

/-!
# Exact doubles

A quotient that is a double is rounded to that double. The last binary digit of a quotient is placed
by comparing powers of two, so this is shown in the rational numbers.
-/

namespace Dialects.Double

/-- A coefficient of at most 53 binary digits and an exponent, as a double holds them: the exponent
is the smallest one unless the coefficient is full. -/
structure Packed (m : Nat) (e : Int) : Prop where
  pos : 0 < m
  lt : m < 2 ^ 53
  le : -1074 ≤ e
  full : 2 ^ 52 ≤ m ∨ e = -1074

/-! ## The place of the last digit -/

theorem scaleDown_snd_pos {den : Nat} (h : 0 < den) (num : Nat) (e : Int) :
    0 < (scaleDown num den e).2 := by
  simp only [scaleDown, Nat.pow_eq]
  positivity

theorem scaleDown_div {den : Nat} (h : 0 < den) (num : Nat) (e : Int) :
    ((scaleDown num den e).1 : ℚ) / (scaleDown num den e).2 = num / den / 2 ^ e := by
  have hden : (den : ℚ) ≠ 0 := by positivity
  simp only [scaleDown, Nat.pow_eq]
  push_cast
  rcases le_total 0 e with he | he
  · obtain ⟨k, rfl⟩ := Int.eq_ofNat_of_zero_le he
    simp only [Int.toNat_neg_natCast, Int.toNat_natCast, zpow_natCast]
    field_simp
  · obtain ⟨k, hk⟩ := Int.eq_ofNat_of_zero_le (show 0 ≤ -e by omega)
    obtain rfl : e = -(k : Int) := by omega
    simp only [neg_neg, Int.toNat_natCast, Int.toNat_neg_natCast, zpow_neg, zpow_natCast]
    field_simp

theorem quotient_bounds {num den : Nat} (hn : 0 < num) (hd : 0 < den) :
    (2 : ℚ) ^ ((num.log2 : Int) - den.log2 - 1) < num / den ∧
      (num : ℚ) / den < 2 ^ ((num.log2 : Int) - den.log2 + 1) := by
  -- A number with so many binary digits lies between two powers of two.
  have hdq : (0 : ℚ) < den := by exact_mod_cast hd
  have n1 : (2 : ℚ) ^ num.log2 ≤ num := by exact_mod_cast Nat.log2_self_le (by omega)
  have n2 : (num : ℚ) < 2 ^ (num.log2 + 1) := by exact_mod_cast Nat.lt_log2_self
  have d1 : (2 : ℚ) ^ den.log2 ≤ den := by exact_mod_cast Nat.log2_self_le (by omega)
  have d2 : (den : ℚ) < 2 ^ (den.log2 + 1) := by exact_mod_cast Nat.lt_log2_self
  have two : (2 : ℚ) ≠ 0 := by norm_num
  constructor
  · rw [lt_div_iff₀ hdq]
    calc (2 : ℚ) ^ ((num.log2 : Int) - den.log2 - 1) * den
        < 2 ^ ((num.log2 : Int) - den.log2 - 1) * 2 ^ (den.log2 + 1) := by gcongr
      _ = 2 ^ num.log2 := by
        rw [← zpow_natCast, ← zpow_add₀ two, ← zpow_natCast]
        congr 1
        push_cast
        ring
      _ ≤ num := n1
  · rw [div_lt_iff₀ hdq]
    calc (num : ℚ) < 2 ^ (num.log2 + 1) := n2
      _ = 2 ^ ((num.log2 : Int) - den.log2 + 1) * 2 ^ den.log2 := by
        rw [← zpow_natCast, ← zpow_natCast, ← zpow_add₀ two]
        congr 1
        push_cast
        ring
      _ ≤ 2 ^ ((num.log2 : Int) - den.log2 + 1) * den := by gcongr

theorem scaleDown_lt_iff {den : Nat} (h : 0 < den) (num : Nat) (e : Int) :
    (scaleDown num den e).1 < (scaleDown num den e).2 * 2 ^ 53 ↔
      (num : ℚ) / den < 2 ^ (e + 53) := by
  have hpos : (0 : ℚ) < (scaleDown num den e).2 := by exact_mod_cast scaleDown_snd_pos h num e
  have hlt : ((scaleDown num den e).1 : ℚ) / (scaleDown num den e).2 < 2 ^ 53 ↔
      (num : ℚ) / den < 2 ^ (e + 53) := by
    rw [scaleDown_div h, div_lt_iff₀ (by positivity), zpow_add₀ (by norm_num), mul_comm]
    norm_num
  rw [← hlt, div_lt_iff₀ hpos, mul_comm]
  exact_mod_cast Iff.rfl

theorem lastBitExponent_eq {num den m : Nat} {e : Int} (hd : 0 < den) (h : Packed m e)
    (hq : (num : ℚ) / den = m * 2 ^ e) : lastBitExponent num den = e := by
  obtain ⟨hm, hm53, he, hfull⟩ := h
  have hpos : (0 : ℚ) < num / den := by rw [hq]; positivity
  have hn : 0 < num := by
    rcases Nat.eq_zero_or_pos num with rfl | h
    · simp at hpos
    · exact h
  obtain ⟨hlow, hhigh⟩ := quotient_bounds hn hd
  have hupper : (num : ℚ) / den < 2 ^ (e + 53) := by
    rw [hq, zpow_add₀ (by norm_num), mul_comm]
    gcongr
    exact_mod_cast hm53
  have hlower : 2 ^ 52 ≤ m → (2 : ℚ) ^ (e + 52) ≤ num / den := by
    intro h
    rw [hq, zpow_add₀ (by norm_num), mul_comm]
    gcongr
    exact_mod_cast h
  have hbelow : (num.log2 : Int) - den.log2 - 1 < e + 53 :=
    (zpow_lt_zpow_iff_right₀ (by norm_num)).mp (hlow.trans hupper)
  simp only [lastBitExponent, Nat.pow_eq, scaleDown_lt_iff hd]
  -- Either all 53 digits are there, or the exponent is the least.
  rcases hfull with hfull | rfl
  · have habove : e + 52 < (num.log2 : Int) - den.log2 + 1 :=
      (zpow_lt_zpow_iff_right₀ (by norm_num)).mp ((hlower hfull).trans_lt hhigh)
    split_ifs with h
    · have : e + 52 < (num.log2 : Int) - den.log2 - 53 + 53 :=
        (zpow_lt_zpow_iff_right₀ (by norm_num)).mp ((hlower hfull).trans_lt h)
      omega
    · have : ¬ e ≤ (num.log2 : Int) - den.log2 - 53 := by
        intro hle
        exact h (hupper.trans_le (zpow_le_zpow_right₀ (by norm_num) (by omega)))
      omega
  · split_ifs with h
    · omega
    · have : ¬ (-1074 : Int) ≤ (num.log2 : Int) - den.log2 - 53 := by
        intro hle
        exact h (hupper.trans_le (zpow_le_zpow_right₀ (by norm_num) (by omega)))
      omega

/-! ## Rounding -/

theorem roundQuotient_mul {den : Nat} (h : 0 < den) (m : Nat) : roundQuotient (m * den) den = m := by
  simp only [roundQuotient, Nat.mul_div_cancel _ h, Nat.mul_mod_left]
  rw [if_neg]
  simp
  omega

/-- What a double holds is rounded to itself. -/
theorem nearestMagnitude_eq {num den m : Nat} {e : Int} (hd : 0 < den) (h : Packed m e)
    (hq : (num : ℚ) / den = m * 2 ^ e) :
    nearestMagnitude num den = min infinityBits ((e + 1074).toNat * 2 ^ 52 + m) := by
  have hpos := scaleDown_snd_pos hd num e
  have hscaled : (scaleDown num den e).1 = m * (scaleDown num den e).2 := by
    have hq' : ((scaleDown num den e).1 : ℚ) / (scaleDown num den e).2 = m := by
      rw [scaleDown_div hd, hq, mul_div_assoc, div_self (by positivity), mul_one]
    rw [div_eq_iff (by positivity)] at hq'
    exact_mod_cast hq'
  simp only [nearestMagnitude, lastBitExponent_eq hd h hq, hscaled,
    roundQuotient_mul hpos, Nat.pow_eq]

end Dialects.Double
