import Dialects.Proofs.Markup.Bracketed
import Dialects.Proofs.Markup.Unfit

/-!
# Texts without brackets

A text without brackets that is not blank is one leaf. If it spells an integer, it is read as that, or
refused if the integer does not have 64 bits. Any other such text is read as another leaf.
-/

namespace Dialects.Markup

open Dialects.Text

/-! ## Spelled integers -/

/-- The number that a run of digits spells, the last one being worth the least. -/
def positionalValue (digits : List Char) : Nat :=
  Nat.ofDigits 10 (digits.reverse.map fun d => d.toNat - '0'.toNat)

/-- The integer that an optional sign and digits spell, however many. -/
inductive SpellsInteger : List Char → Int → Prop
  | unsigned {digits : List Char} (h : IsDigits digits) : SpellsInteger digits (positionalValue digits)
  | plus {digits : List Char} (h : IsDigits digits) :
    SpellsInteger ('+' :: digits) (positionalValue digits)
  | minus {digits : List Char} (h : IsDigits digits) :
    SpellsInteger ('-' :: digits) (-positionalValue digits)

theorem digitsValue_eq_positionalValue (digits : List Char) :
    Decimal.digitsValue digits = positionalValue digits := by
  induction digits using List.reverseRecOn with
  | nil => rfl
  | append_singleton ds d ih =>
    rw [Decimal.digitsValue, Nat.ofDigitChars_append, Nat.ofDigitChars_cons, Nat.ofDigitChars_nil,
      ← Decimal.digitsValue, ih, positionalValue, positionalValue, List.reverse_append,
      List.reverse_singleton, List.singleton_append, List.map_cons, Nat.ofDigits_cons, Nat.add_comm]

theorem SpellsInteger.value_eq {cs : List Char} {z : Int} (h : SpellsInteger cs z) :
    Integer.value cs = z := by
  cases h with
  | unsigned h => rw [Integer.value_of_isDigits h, digitsValue_eq_positionalValue]
  | plus h => rw [Integer.value, digitsValue_eq_positionalValue]
  | minus h => rw [Integer.value, digitsValue_eq_positionalValue]

theorem isInteger_iff {cs : List Char} : isInteger cs ↔ ∃ z, SpellsInteger cs z := by
  constructor
  · intro h
    have hdigits {ds : List Char} (h : !ds.isEmpty && ds.all Char.isDigit) : IsDigits ds := by
      simpa [IsDigits] using h
    unfold isInteger at h
    split at h
    · exact ⟨_, .minus (hdigits h)⟩
    · exact ⟨_, .plus (hdigits h)⟩
    · exact ⟨_, .unsigned (hdigits h)⟩
  · rintro ⟨z, h⟩
    cases h with
    | unsigned h => exact isInteger_of_isDigits h false
    | plus h => simpa [isInteger, IsDigits] using h
    | minus h => exact isInteger_of_isDigits h true

theorem SpellsInteger.isPlain {cs : List Char} {z : Int} (h : SpellsInteger cs z) : IsPlain cs := by
  have hdigits {ds : List Char} (hds : IsDigits ds) :
      ∀ c ∈ ds, isBlank c = false ∧ isBracket c = false := fun c hc =>
    ⟨isBlank_of_isDigit (hds.2 c hc), isBracket_of_isDigit (hds.2 c hc)⟩
  cases h with
  | unsigned h => exact isPlain_of_forall h.1 (hdigits h)
  | plus h =>
    exact isPlain_of_forall (List.cons_ne_nil _ _) (List.forall_mem_cons.mpr ⟨by decide, hdigits h⟩)
  | minus h =>
    exact isPlain_of_forall (List.cons_ne_nil _ _) (List.forall_mem_cons.mpr ⟨by decide, hdigits h⟩)

theorem spellsInteger_text (n : Int64) : SpellsInteger (Integer.text n) n.toInt := by
  obtain ⟨z, hz⟩ := isInteger_iff.mp (Integer.isInteger_text n)
  rwa [← Integer.value_text n, hz.value_eq]

theorem exists_read?_eq_some {cs : List Char} (hmin : -2 ^ 63 ≤ Integer.value cs)
    (hmax : Integer.value cs ≤ 2 ^ 63 - 1) :
    ∃ n : Int64, n.toInt = Integer.value cs ∧ Integer.read? cs = some n := by
  refine ⟨Int64.ofInt (Integer.value cs), Int64.toInt_ofInt_of_le hmin (by omega), if_pos ?_⟩
  rw [Int64.toInt_minValue, Int64.toInt_maxValue]
  exact ⟨hmin, hmax⟩

/-! ## Leaves of texts -/

theorem exists_leaf?_of_not_isInteger {cs : List Char} (h : isInteger cs = false) :
    ∃ v, (Symbol.ofText cs).leaf? = some v ∧ v.asNumber? = none := by
  simp only [Symbol.ofText, h, Bool.false_eq_true, if_false]
  split_ifs <;> exact ⟨_, rfl, rfl⟩

theorem ofText_of_spellsInteger {cs : List Char} {z : Int} (h : SpellsInteger cs z) :
    Symbol.ofText cs = .number (String.ofList cs) :=
  if_pos (isInteger_iff.mpr ⟨z, h⟩)

theorem parse_of_not_isBracket {source : String} (hplain : ∀ c ∈ source.toList, isBracket c = false)
    (hblank : ∃ c ∈ source.toList, isBlank c = false) :
    parse source = reader.run (.eof (byteLength source.toList)) (.ok .start)
      [⟨Symbol.ofText (trim source.toList), byteLength (source.toList.takeWhile isBlank)⟩] := by
  have hscan := ofCursor_leaf hplain hblank stops_nil 0
  rw [List.append_nil, Nat.zero_add, Nat.zero_add] at hscan
  rw [parse, Scan.ofSource, Text.Cursor.start, hscan]
  rfl

theorem run_leaf {t : Token Symbol} {v : Value} (h : t.symbol.leaf? = some v) (position : Nat) :
    reader.run (.eof position) (.ok .start) [t] = .ok v := by
  rw [show State.start = .before [] from rfl, Reader.run_cons_ok reader (Moves.step (.leaf h))]
  rfl

/-! ## Whole texts -/

/-- Whether a text is an integer with blanks around it. -/
structure HoldsInteger (source : String) (before cs : List Char) (z : Int) : Prop where
  spells : SpellsInteger cs z
  blanks : ∀ c ∈ before, isBlank c
  text : ∃ after, source.toList = before ++ (cs ++ after) ∧ ∀ c ∈ after, isBlank c

namespace HoldsInteger

variable {source : String} {before cs : List Char} {z : Int}

theorem stops (h : HoldsInteger source before cs z) (after : List Char) :
    Stops isBlank (cs ++ after) := by
  obtain ⟨hne, ⟨hstart, -⟩, -⟩ := h.spells.isPlain
  obtain ⟨c, cs, rfl⟩ := List.exists_cons_of_ne_nil hne
  exact stops_cons.mpr (stops_cons.mp hstart)

theorem takeWhile_eq (h : HoldsInteger source before cs z) :
    source.toList.takeWhile isBlank = before := by
  obtain ⟨after, htext, -⟩ := h.text
  rw [htext, takeWhile_append_of_stops h.blanks (h.stops after)]

theorem trim_eq (h : HoldsInteger source before cs z) : trim source.toList = cs := by
  obtain ⟨after, htext, hafter⟩ := h.text
  rw [← trim_dropWhile, htext, dropWhile_append_of_stops h.blanks (h.stops after),
    trim_append_blanks h.spells.isPlain.2.1 hafter]

theorem not_isBracket (h : HoldsInteger source before cs z) :
    ∀ c ∈ source.toList, isBracket c = false := by
  obtain ⟨after, htext, hafter⟩ := h.text
  rw [htext]
  refine List.forall_mem_append.mpr ⟨fun c hc => ?_, List.forall_mem_append.mpr
    ⟨h.spells.isPlain.2.2, fun c hc => ?_⟩⟩
  · simpa using not_isBracket_of_isBlank (h.blanks c hc)
  · simpa using not_isBracket_of_isBlank (hafter c hc)

theorem exists_not_isBlank (h : HoldsInteger source before cs z) :
    ∃ c ∈ source.toList, isBlank c = false :=
  trim_ne_nil_iff.mp (h.trim_eq ▸ h.spells.isPlain.1)

theorem parse_eq_ok (h : HoldsInteger source before cs z) (hrange : -2 ^ 63 ≤ z ∧ z ≤ 2 ^ 63 - 1) :
    ∃ n : Int64, n.toInt = z ∧ parse source = .ok (.number n) := by
  rw [← h.spells.value_eq] at hrange ⊢
  obtain ⟨n, hn, hread⟩ := exists_read?_eq_some hrange.1 hrange.2
  refine ⟨n, hn, ?_⟩
  rw [parse_of_not_isBracket h.not_isBracket h.exists_not_isBlank, h.trim_eq,
    ofText_of_spellsInteger h.spells]
  exact run_leaf (by simp [Symbol.leaf?, hread]) _

theorem parse_eq_error (h : HoldsInteger source before cs z)
    (hrange : ¬(-2 ^ 63 ≤ z ∧ z ≤ 2 ^ 63 - 1)) :
    parse source = .error ⟨.malformedNumber (String.ofList cs), byteLength before⟩ := by
  have hfits : ¬(Symbol.number (String.ofList cs)).Fits := by
    rwa [Symbol.Fits, String.toList_ofList, h.spells.value_eq, Int64.toInt_minValue,
      Int64.toInt_maxValue]
  rw [parse_of_not_isBracket h.not_isBracket h.exists_not_isBlank, h.trim_eq, h.takeWhile_eq,
    ofText_of_spellsInteger h.spells, show State.start = .before [] from rfl,
    Reader.run_cons_ok reader (step_of_not_fits rfl hfits [])]
  rfl

end HoldsInteger

theorem exists_holdsInteger {source : String} (h : isInteger (trim source.toList)) :
    ∃ before cs z, HoldsInteger source before cs z := by
  obtain ⟨z, hz⟩ := isInteger_iff.mp h
  obtain ⟨after, hsplit, hafter⟩ := exists_blanks_of_trim (stops_dropWhile isBlank source.toList)
  rw [trim_dropWhile] at hsplit
  refine ⟨source.toList.takeWhile isBlank, trim source.toList, z, hz,
    fun c hc => List.mem_takeWhile_imp hc, after, ?_, hafter⟩
  rw [← hsplit, List.takeWhile_append_dropWhile]

/-- An integer with blanks around it is read as that integer if it has 64 bits, and refused at its
first character if not. No other text without brackets is read as a number or refused for one. The
text of an integer is read as that integer. -/
theorem parse_bareLeaf :
    (∀ source before cs z, HoldsInteger source before cs z →
      if -2 ^ 63 ≤ z ∧ z ≤ 2 ^ 63 - 1 then ∃ n : Int64, n.toInt = z ∧ parse source = .ok (.number n)
      else parse source = .error ⟨.malformedNumber (String.ofList cs), byteLength before⟩) ∧
    (∀ source, (∀ c ∈ source.toList, isBracket c = false) → (∃ c ∈ source.toList, isBlank c = false) →
      (∀ before cs z, ¬HoldsInteger source before cs z) →
      ∃ v, parse source = .ok v ∧ v.asNumber? = none) ∧
    ∀ (n : Int64) (layout : Layout), parse ((Value.number n).text layout) = .ok (.number n) := by
  refine ⟨fun source before cs z h => ?_, fun source hplain hblank hother => ?_, fun n layout => ?_⟩
  · split_ifs with hrange
    · exact h.parse_eq_ok hrange
    · exact h.parse_eq_error hrange
  · have hnot : isInteger (trim source.toList) = false := by
      rw [← Bool.not_eq_true]
      intro hinteger
      obtain ⟨before, cs, z, h⟩ := exists_holdsInteger hinteger
      exact hother before cs z h
    obtain ⟨v, hleaf, hnumber⟩ := exists_leaf?_of_not_isInteger hnot
    refine ⟨v, ?_, hnumber⟩
    rw [parse_of_not_isBracket hplain hblank]
    exact run_leaf hleaf _
  · have htext : HoldsInteger ((Value.number n).text layout) [] (Integer.text n) n.toInt :=
      ⟨spellsInteger_text n, by simp, [], by simp [Value.text, Value.write], by simp⟩
    have hmin := Int64.le_toInt n
    have hmax := Int64.toInt_lt n
    obtain ⟨m, hm, hparse⟩ := htext.parse_eq_ok (by omega)
    rwa [Int64.toInt_inj.mp hm] at hparse

/-- The least integer is read, with zeros in front; the one behind the greatest is not. Two integers
are a string. -/
theorem parse_bareLeaf_limits :
    parse " -0009223372036854775808\n" = .ok (.number Int64.minValue) ∧
      parse "\t+9223372036854775808" = .error ⟨.malformedNumber "+9223372036854775808", 1⟩ ∧
      ∃ v, parse "1 2" = .ok v ∧ v.asNumber? = none := by
  obtain ⟨hinteger, hother, -⟩ := parse_bareLeaf
  have hleast : HoldsInteger " -0009223372036854775808\n" [' '] "-0009223372036854775808".toList
      (-positionalValue "0009223372036854775808".toList) :=
    ⟨.minus ⟨by simp, List.all_eq_true.mp rfl⟩, List.all_eq_true.mp rfl, ['\n'], rfl,
      List.all_eq_true.mp rfl⟩
  have hbehind : HoldsInteger "\t+9223372036854775808" ['\t'] "+9223372036854775808".toList
      (positionalValue "9223372036854775808".toList) :=
    ⟨.plus ⟨by simp, List.all_eq_true.mp rfl⟩, List.all_eq_true.mp rfl, [], rfl, by simp⟩
  rw [← digitsValue_eq_positionalValue] at hleast hbehind
  refine ⟨?_, hinteger _ _ _ _ hbehind, hother "1 2" (by simp [isBracket])
    (by simp; decide) ?_⟩
  · obtain ⟨n, hn, hparse⟩ := hinteger _ _ _ _ hleast
    rwa [Int64.toInt_inj.mp (hn.trans (rfl : _ = Int64.minValue.toInt))] at hparse
  · intro before cs z h
    have hinteger := isInteger_iff.mpr ⟨z, h.spells⟩
    rw [← h.trim_eq] at hinteger
    exact absurd hinteger (by decide +kernel)

end Dialects.Markup
