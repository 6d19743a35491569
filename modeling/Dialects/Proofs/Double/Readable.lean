import Dialects.Double.Decimal
import Dialects.Proofs.Double.Numeral

/-!
# Texts of doubles

A text is read as a double exactly if it is a word for an infinity or for no number, or digits with
maybe a point among them and maybe an exponent behind them. Any of these may have a sign.
-/

namespace Dialects

open Dialects.Text

/-- Whether a text is digits, maybe with a point among them, and maybe an exponent. -/
inductive IsUnsignedText : List Char → Prop
  | whole {whole exponent : List Char} (hw : IsDigits whole) (he : IsExponent exponent) :
    IsUnsignedText (whole ++ exponent)
  | point {whole part exponent : List Char} (hw : ∀ c ∈ whole, c.isDigit)
    (hp : ∀ c ∈ part, c.isDigit) (hdigit : whole ≠ [] ∨ part ≠ []) (he : IsExponent exponent) :
    IsUnsignedText (whole ++ '.' :: (part ++ exponent))

/-- Whether a text is that of an infinity or of no number, in any case. -/
def IsDoubleWord (cs : List Char) : Prop :=
  String.ofList (cs.map Char.toLower) ∈ ["inf", "infinity", "nan"]

/-- Whether a text spells a double. -/
def IsDoubleText (cs : List Char) : Prop :=
  ∃ sign unsigned, IsSign sign ∧ (IsDoubleWord unsigned ∨ IsUnsignedText unsigned) ∧
    cs = sign ++ unsigned

/-! ## Signs -/

def isSignChar (c : Char) : Bool := c == '-' || c == '+'

theorem exists_sign (cs : List Char) : ∃ sign unsigned, IsSign sign ∧
    (sign = [] → Stops isSignChar unsigned) ∧ cs = sign ++ unsigned := by
  cases cs with
  | nil => exact ⟨[], [], .inl rfl, by simp, rfl⟩
  | cons c cs =>
    by_cases hminus : c = '-'
    · exact ⟨['-'], cs, .inr (.inl rfl), by simp, by simp [hminus]⟩
    by_cases hplus : c = '+'
    · exact ⟨['+'], cs, .inr (.inr rfl), by simp, by simp [hplus]⟩
    exact ⟨[], c :: cs, .inl rfl, fun _ => by simp [isSignChar, hminus, hplus], rfl⟩

theorem IsDigits.stops_isSignChar {cs : List Char} (h : IsDigits cs) : Stops isSignChar cs := by
  obtain ⟨d, ds, rfl⟩ := List.exists_cons_of_ne_nil h.1
  obtain ⟨hminus, hplus⟩ := ne_sign_of_isDigit (h.2 d List.mem_cons_self)
  simp [isSignChar, hminus, hplus]

namespace Decimal

/-! ## Numerals -/

theorem isSome_signedExponent?_of_stops {cs : List Char} (h : Stops isSignChar cs) :
    (signedExponent? cs).isSome ↔ IsDigits cs := by
  cases cs with
  | nil => simp [signedExponent?, IsDigits]
  | cons c cs =>
    obtain ⟨hminus, hplus⟩ : c ≠ '-' ∧ c ≠ '+' := by simpa [isSignChar] using h
    simp [signedExponent?, hminus, hplus, IsDigits]

theorem isSome_signedExponent?_iff {cs : List Char} : (signedExponent? cs).isSome ↔
    ∃ sign digits, IsSign sign ∧ IsDigits digits ∧ cs = sign ++ digits := by
  constructor
  · intro h
    obtain ⟨sign, digits, hsign, hstops, rfl⟩ := exists_sign cs
    refine ⟨sign, digits, hsign, ?_, rfl⟩
    obtain rfl | rfl | rfl := hsign
    · exact (isSome_signedExponent?_of_stops (hstops rfl)).mp h
    · simpa [signedExponent?, IsDigits] using h
    · simpa [signedExponent?, IsDigits] using h
  · rintro ⟨sign, digits, rfl | rfl | rfl, h, rfl⟩
    · exact (isSome_signedExponent?_of_stops h.stops_isSignChar).mpr h
    · simpa [signedExponent?, IsDigits] using h
    · simpa [signedExponent?, IsDigits] using h

theorem isSome_exponent?_iff {cs : List Char} : (exponent? cs).isSome ↔ IsExponent cs := by
  cases cs with
  | nil => simp [exponent?, IsExponent]
  | cons mark cs =>
    simp only [exponent?, Bool.or_eq_true, beq_iff_eq]
    split_ifs with hmark
    · rw [isSome_signedExponent?_iff]
      constructor
      · rintro ⟨sign, digits, hsign, hdigits, rfl⟩
        exact .inr ⟨mark, sign, digits, hmark, hsign, hdigits, rfl⟩
      · rintro (hnil | ⟨_, sign, digits, -, hsign, hdigits, hcons⟩)
        · simp at hnil
        · exact ⟨sign, digits, hsign, hdigits, (List.cons.inj hcons).2⟩
    · refine iff_of_false (by simp) ?_
      rintro (hnil | ⟨_, sign, digits, hmark', -, -, hcons⟩)
      · simp at hnil
      · exact hmark ((List.cons.inj hcons).1 ▸ hmark')

theorem isSome_ofNumeral?_append {whole tail : List Char} (hw : ∀ c ∈ whole, c.isDigit)
    (htail : Stops Char.isDigit tail) : (ofNumeral? (whole ++ tail)).isSome ↔
      (whole ≠ [] ∨ (fraction tail).1 ≠ []) ∧ IsExponent (fraction tail).2 := by
  simp only [ofNumeral?, takeWhile_append_of_stops hw htail, dropWhile_append_of_stops hw htail,
    ← isSome_exponent?_iff]
  split_ifs with hempty
  · simp_all
  · have hdigit : whole ≠ [] ∨ (fraction tail).1 ≠ [] := by
      simpa [or_iff_not_imp_left] using hempty
    simp [hdigit]

theorem fraction_eq (cs : List Char) : (∃ rest, cs = '.' :: rest) ∨ fraction cs = ([], cs) := by
  unfold fraction
  split
  · exact .inl ⟨_, rfl⟩
  · exact .inr rfl

theorem fraction_of_isExponent {cs : List Char} (h : IsExponent cs) : fraction cs = ([], cs) := by
  obtain rfl | ⟨mark, sign, digits, rfl | rfl, -, -, rfl⟩ := h <;> rfl

theorem fraction_point {part exponent : List Char} (hp : ∀ c ∈ part, c.isDigit)
    (he : IsExponent exponent) : fraction ('.' :: (part ++ exponent)) = (part, exponent) := by
  rw [fraction, takeWhile_append_of_stops hp he.stops_isDigit,
    dropWhile_append_of_stops hp he.stops_isDigit]

theorem isSome_ofNumeral?_iff {cs : List Char} : (ofNumeral? cs).isSome ↔ IsUnsignedText cs := by
  constructor
  · intro h
    have hwhole : ∀ c ∈ cs.takeWhile Char.isDigit, c.isDigit := fun c hc => List.mem_takeWhile_imp hc
    have hstops := stops_dropWhile Char.isDigit cs
    rw [← List.takeWhile_append_dropWhile (p := Char.isDigit) (l := cs)] at h ⊢
    obtain ⟨hdigit, he⟩ := (isSome_ofNumeral?_append hwhole hstops).mp h
    obtain ⟨rest, hrest⟩ | hnone := fraction_eq (cs.dropWhile Char.isDigit)
    · rw [hrest] at hdigit he ⊢
      rw [← List.takeWhile_append_dropWhile (p := Char.isDigit) (l := rest)]
      exact .point hwhole (fun c hc => List.mem_takeWhile_imp hc) hdigit he
    · rw [hnone] at hdigit he
      exact .whole ⟨by simpa using hdigit, hwhole⟩ he
  · intro h
    cases h with
    | whole hw he =>
      rw [isSome_ofNumeral?_append hw.2 he.stops_isDigit, fraction_of_isExponent he]
      exact ⟨.inl hw.1, he⟩
    | point hw hp hdigit he =>
      rw [isSome_ofNumeral?_append hw (by simp [Char.isDigit]), fraction_point hp he]
      exact ⟨hdigit, he⟩

end Decimal

/-! ## Doubles -/

namespace Double

theorem isSome_readUnsigned?_iff {negative : Bool} {cs : List Char} :
    (readUnsigned? negative cs).isSome ↔ IsDoubleWord cs ∨ IsUnsignedText cs := by
  rw [← Decimal.isSome_ofNumeral?_iff]
  simp only [readUnsigned?, IsDoubleWord]
  split_ifs <;> simp_all
  tauto

theorem read?_of_stops {cs : List Char} (h : Stops isSignChar cs) : read? cs = readUnsigned? false cs := by
  cases cs with
  | nil => rfl
  | cons c cs =>
    obtain ⟨hminus, hplus⟩ : c ≠ '-' ∧ c ≠ '+' := by simpa [isSignChar] using h
    simp [read?, hminus, hplus]

theorem stops_isSignChar {cs : List Char} (h : IsDoubleWord cs ∨ IsUnsignedText cs) :
    Stops isSignChar cs := by
  obtain h | h := h
  · cases cs with
    | nil => simp
    | cons c cs =>
      rw [stops_cons, isSignChar, Bool.or_eq_false_iff, beq_eq_false_iff_ne, beq_eq_false_iff_ne]
      constructor <;> rintro rfl <;> simp [IsDoubleWord, ← String.toList_inj] at h
  · cases h with
    | @whole whole exponent hw he =>
      obtain ⟨d, ds, rfl⟩ := List.exists_cons_of_ne_nil hw.1
      exact stops_cons.mpr (stops_cons.mp hw.stops_isSignChar)
    | @point whole part exponent hw hp hdigit he =>
      cases whole with
      | nil => simp [isSignChar]
      | cons d ds =>
        have hwhole : IsDigits (d :: ds) := ⟨by simp, hw⟩
        exact stops_cons.mpr (stops_cons.mp hwhole.stops_isSignChar)

/-- A text is read as a double exactly if it spells one. -/
theorem isSome_read?_iff {cs : List Char} : (read? cs).isSome ↔ IsDoubleText cs := by
  constructor
  · intro h
    obtain ⟨sign, unsigned, hsign, hstops, rfl⟩ := exists_sign cs
    refine ⟨sign, unsigned, hsign, ?_, rfl⟩
    obtain rfl | rfl | rfl := hsign
    · exact isSome_readUnsigned?_iff.mp ((read?_of_stops (hstops rfl)) ▸ h)
    · exact isSome_readUnsigned?_iff.mp h
    · exact isSome_readUnsigned?_iff.mp h
  · rintro ⟨sign, unsigned, rfl | rfl | rfl, h, rfl⟩
    · exact read?_of_stops (stops_isSignChar h) ▸ isSome_readUnsigned?_iff.mpr h
    · exact isSome_readUnsigned?_iff.mpr h
    · exact isSome_readUnsigned?_iff.mpr h

end Double

end Dialects
