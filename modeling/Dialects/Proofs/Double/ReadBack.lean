import Dialects.Double.Decimal
import Dialects.Proofs.Double.Exact
import Dialects.Proofs.Double.Numeral

/-!
# Doubles read back

The text of a finite double is a numeral, and reading it gives the same double.
-/

namespace Dialects

/-! ## The exact value -/

namespace Double

theorem magnitude_lt {x : Double} (h : x.isFinite) : x.magnitude < 0x7FF * 2 ^ 52 := by
  have := of_decide_eq_true h
  simpa only [infinityBits, Nat.pow_eq] using this

theorem quotient_spec {x : Double} (hfin : x.isFinite) (hzero : x.isZero = false) :
    ∃ m k : Nat, ∃ e : Int, x.quotient.2 = Nat.pow 2 k ∧ k ≤ 1074 ∧ Packed m e ∧ e ≤ 971 ∧
      (x.quotient.1 : ℚ) / 2 ^ k = m * 2 ^ e ∧
      (e + 1074).toNat * 2 ^ 52 + m = x.magnitude := by
  have hlt := magnitude_lt hfin
  have hpos : 0 < x.magnitude := by
    simp only [isZero, beq_eq_false_iff_ne] at hzero
    omega
  unfold quotient
  dsimp only
  rw [show Nat.pow 2 52 = 2 ^ 52 by rfl]
  -- A subnormal double has no leading bit, and of the others only the large are whole numbers.
  by_cases h0 : x.magnitude / 2 ^ 52 = 0
  · rw [if_pos (beq_iff_eq.mpr h0)]
    -- The exponent gets a name, or else every step would try to work out the power.
    obtain ⟨k, hk⟩ : ∃ k, k = 1074 := ⟨1074, rfl⟩
    rw [← hk]
    refine ⟨x.magnitude % 2 ^ 52, k, -k, rfl, le_rfl,
      ⟨by omega, by omega, by omega, .inr (by omega)⟩, by omega, ?_, by omega⟩
    rw [div_eq_mul_inv, zpow_neg, zpow_natCast]
  rw [if_neg (beq_iff_eq.not.mpr h0)]
  by_cases h1 : x.magnitude / 2 ^ 52 < 1075
  · rw [if_pos h1]
    refine ⟨x.magnitude % 2 ^ 52 + 2 ^ 52, 1075 - x.magnitude / 2 ^ 52,
      -(1075 - x.magnitude / 2 ^ 52 : Nat), rfl, by omega,
      ⟨by omega, by omega, by omega, .inl (by omega)⟩, by omega, ?_, by omega⟩
    rw [div_eq_mul_inv, zpow_neg, zpow_natCast]
  · rw [if_neg h1]
    refine ⟨x.magnitude % 2 ^ 52 + 2 ^ 52, 0, (x.magnitude / 2 ^ 52 - 1075 : Nat), by simp,
      by omega, ⟨by omega, by omega, by omega, .inl (by omega)⟩, by omega, ?_, by omega⟩
    rw [zpow_natCast, Nat.pow_eq]
    push_cast
    simp

theorem digitCount_pos (n : Nat) : 0 < Decimal.digitCount n := Nat.length_toDigits_pos

theorem digitCount_bounds {num k : Nat} (hpos : 0 < num) (hk : k ≤ 1074)
    (hlt : num < 2 ^ 1024 * 2 ^ k) :
    -330 ≤ (Decimal.digitCount (num * 5 ^ k) : Int) - k ∧
      (Decimal.digitCount (num * 5 ^ k) : Int) - k ≤ 310 := by
  have h1 : 2 ^ 1024 ≤ 10 ^ 310 := by decide +kernel
  have h2 : 2 ^ k ≤ 10 ^ 331 := by
    calc 2 ^ k ≤ 2 ^ 1074 := Nat.pow_le_pow_right (by decide) hk
      _ ≤ 10 ^ 331 := by decide +kernel
  have hten : ∀ j, 2 ^ j * 5 ^ j = 10 ^ j := fun j => (mul_pow 2 5 j).symm
  constructor
  · by_contra hlow
    have hpos' := digitCount_pos (num * 5 ^ k)
    obtain ⟨j, hj⟩ := Nat.exists_eq_add_of_le (show 331 ≤ k by omega)
    have hsmall := (Decimal.digitCount_le_iff (n := num * 5 ^ k) (k := j) (by omega)).mp (by omega)
    have : 10 ^ j * 10 ^ 331 < 10 ^ j * 10 ^ 331 := by
      calc 10 ^ j * 10 ^ 331 = 2 ^ k * 5 ^ k := by rw [hten, hj, pow_add, mul_comm]
        _ ≤ 10 ^ 331 * 5 ^ k := by gcongr
        _ ≤ 10 ^ 331 * (num * 5 ^ k) := by gcongr; exact Nat.le_mul_of_pos_left _ hpos
        _ < 10 ^ 331 * 10 ^ j := by gcongr
        _ = 10 ^ j * 10 ^ 331 := mul_comm _ _
    exact lt_irrefl _ this
  · have hlarge : num * 5 ^ k < 10 ^ (310 + k) := by
      calc num * 5 ^ k < 2 ^ 1024 * 2 ^ k * 5 ^ k := by gcongr
        _ = 2 ^ 1024 * 10 ^ k := by rw [mul_assoc, hten]
        _ ≤ 10 ^ 310 * 10 ^ k := by gcongr
        _ = 10 ^ (310 + k) := (pow_add _ _ _).symm
    have := (Decimal.digitCount_le_iff (by omega)).mpr hlarge
    omega

theorem nearestMagnitude_exactDecimal {x : Double} (hfin : x.isFinite) (hzero : x.isZero = false) :
    x.exactDecimal.nearestMagnitude = x.magnitude := by
  obtain ⟨m, k, e, hden, hk, hpacked, he, hq, hm⟩ := quotient_spec hfin hzero
  have hmpos : (0 : ℚ) < m := by exact_mod_cast hpacked.pos
  have hpos : 0 < x.quotient.1 := by
    have : (0 : ℚ) < x.quotient.1 / 2 ^ k := by rw [hq]; positivity
    rw [div_pos_iff_of_pos_right (by positivity)] at this
    exact_mod_cast this
  -- The largest coefficient, times the largest power, is still below the infinities.
  have hlt : x.quotient.1 < 2 ^ 1024 * 2 ^ k := by
    have hm53 : (m : ℚ) < 2 ^ 53 := by exact_mod_cast hpacked.lt
    have he971 : (2 : ℚ) ^ e ≤ 2 ^ (971 : Int) := zpow_le_zpow_right₀ (by norm_num) he
    have : (x.quotient.1 : ℚ) / 2 ^ k < 2 ^ 1024 := by
      calc (x.quotient.1 : ℚ) / 2 ^ k = m * 2 ^ e := hq
        _ < 2 ^ 53 * 2 ^ e := by gcongr
        _ ≤ 2 ^ 53 * 2 ^ (971 : Int) := by gcongr
        _ = 2 ^ 1024 := by rw [← zpow_natCast, ← zpow_natCast, ← zpow_add₀ (by norm_num)]; rfl
    rw [div_lt_iff₀ (by positivity)] at this
    exact_mod_cast this
  obtain ⟨hlow, hhigh⟩ := digitCount_bounds hpos hk hlt
  -- As many fives make a power of ten of the denominator.
  have hexact : ((x.quotient.1 * 5 ^ k : Nat) : ℚ) / (10 ^ k : Nat) = m * 2 ^ e := by
    rw [← hq, show (10 : Nat) = 2 * 5 by rfl, mul_pow]
    push_cast
    field_simp
  have hround := nearestMagnitude_eq (by positivity) hpacked hexact
  simp only [exactDecimal, hden, Nat.pow_eq, Nat.log2_two_pow, Decimal.nearestMagnitude,
    Int.toNat_neg_natCast, neg_neg, Int.toNat_natCast, pow_zero, mul_one, hround, hm,
    beq_iff_eq, Bool.or_eq_true, decide_eq_true_eq]
  rw [if_neg, if_neg (by omega), min_eq_right]
  · have := magnitude_lt hfin
    simp only [infinityBits, Nat.pow_eq]
    omega
  · have : 0 < x.quotient.1 * 5 ^ k := by positivity
    omega

theorem nearestMagnitude_shortest {x : Double} (hfin : x.isFinite) :
    x.shortest.nearestMagnitude = x.magnitude := by
  by_cases hzero : x.isZero
  · simp only [shortest, hzero, if_true]
    simp only [isZero, beq_iff_eq] at hzero
    simp [Decimal.nearestMagnitude, hzero]
  · rw [shortest, if_neg hzero]
    simp only
    cases h : List.find? _ _ with
    | some d => simpa using List.find?_some h
    | none => exact nearestMagnitude_exactDecimal hfin (by simpa using hzero)

/-! ## The text -/

theorem text_of_finite {x : Double} (h : x.isFinite) :
    x.text = (if x.isNegative then ['-'] else []) ++ x.shortest.text := by
  have hnan : x.isNaN = false := by
    have := of_decide_eq_true h
    simp only [isNaN, decide_eq_false_iff_not]
    omega
  simp [text, hnan, h]

theorem ofMagnitude_magnitude (x : Double) : ofMagnitude x.isNegative x.magnitude = x := by
  obtain ⟨bits⟩ := x
  have hlt : bits.toNat < 2 ^ 64 := bits.toNat_lt
  have hsplit : bits.toNat % signWeight + (if signWeight ≤ bits.toNat then signWeight else 0) =
      bits.toNat := by
    rw [show signWeight = 2 ^ 63 by rfl]
    split_ifs <;> omega
  simp only [ofMagnitude, isNegative, magnitude, decide_eq_true_eq, hsplit, UInt64.ofNat_toNat]

theorem readUnsigned?_numeral {cs : List Char} (h : IsNumeral cs) (negative : Bool) :
    readUnsigned? negative cs = (Decimal.ofNumeral? cs).map (ofDecimal negative) := by
  obtain ⟨whole, part, ⟨hne, hall⟩, -, rfl⟩ := h
  obtain ⟨d, whole, rfl⟩ := List.exists_cons_of_ne_nil hne
  have hd : d.isDigit := hall d List.mem_cons_self
  have hlower : d.toLower.isDigit := by
    simp only [Char.isDigit, Char.toLower, Bool.and_eq_true, decide_eq_true_eq] at hd ⊢
    split_ifs <;> grind
  -- The three words start with letters, the numeral with a digit.
  have hword : ∀ w : String, (∀ c ∈ w.toList.head?, c.isDigit = false) →
      String.ofList ((d :: whole ++ part).map Char.toLower) ≠ w := by
    rintro w hw rfl
    simp [hlower] at hw
  simp only [readUnsigned?, beq_iff_eq, Bool.or_eq_true]
  rw [if_neg, if_neg (hword _ (by simp))]
  rintro (h | h)
  · exact hword _ (by simp) h
  · exact hword _ (by simp) h

theorem read?_numeral {cs : List Char} (h : IsNumeral cs) : read? cs = readUnsigned? false cs := by
  obtain ⟨whole, part, ⟨hne, hall⟩, -, rfl⟩ := h
  obtain ⟨d, whole, rfl⟩ := List.exists_cons_of_ne_nil hne
  obtain ⟨hminus, hplus⟩ := ne_sign_of_isDigit (hall d List.mem_cons_self)
  rw [List.cons_append, read?]
  · simpa using hminus
  · simpa using hplus

theorem readUnsigned?_shortest {x : Double} (h : x.isFinite) (negative : Bool) :
    readUnsigned? negative x.shortest.text = some (ofMagnitude negative x.magnitude) := by
  obtain ⟨e, he, hround⟩ := Decimal.ofNumeral?_text x.shortest
  rw [readUnsigned?_numeral (Decimal.isNumeral_text _), he, Option.map_some, ofDecimal, hround,
    nearestMagnitude_shortest h]

/-- Reading the text of a finite double gives the same double. -/
theorem read?_text {x : Double} (h : x.isFinite) : read? x.text = some x := by
  have hmagnitude := ofMagnitude_magnitude x
  rw [text_of_finite h]
  cases hneg : x.isNegative with
  | true =>
    rw [hneg] at hmagnitude
    rw [if_pos rfl, List.singleton_append, read?, readUnsigned?_shortest h, hmagnitude]
  | false =>
    rw [hneg] at hmagnitude
    rw [if_neg Bool.false_ne_true, List.nil_append, read?_numeral (Decimal.isNumeral_text _),
      readUnsigned?_shortest h, hmagnitude]

/-! ## Signs -/

theorem magnitude_lt_signWeight (x : Double) : x.magnitude < signWeight :=
  Nat.mod_lt _ (by decide)

theorem neg_ofMagnitude {magnitude : Nat} (h : magnitude < signWeight) :
    (ofMagnitude false magnitude).neg = ofMagnitude true magnitude := by
  have hweight : signWeight = 2 ^ 63 := rfl
  have hbits : (ofMagnitude false magnitude).bits.toNat = magnitude := by
    rw [ofMagnitude, UInt64.toNat_ofNat']
    simp
    omega
  rw [neg, isNegative, Double.magnitude, hbits, Nat.mod_eq_of_lt h]
  simp [Nat.not_le.mpr h]

end Double

end Dialects
