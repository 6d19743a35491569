import Dialects.Json.Literal
import Dialects.Proofs.Double.Readable

/-!
# Number literals

A number literal is an optional sign, digits, and maybe a fraction and an exponent, so that it always
stands for a double. It is read in front of any character that it could not go on with.
-/

namespace Dialects.Json

open Dialects.Text

def IsNumberLiteral (literal : List Char) : Prop :=
  ∃ sign whole part exponent, IsSign sign ∧ IsDigits whole ∧ IsFraction part ∧ IsExponent exponent ∧
    literal = sign ++ (whole ++ (part ++ exponent))

/-- Whether a number could go on with a character. -/
def extendsNumber (c : Char) : Bool := c.isDigit || c == '.' || c == 'e' || c == 'E'

/-- Whether a character stands in numbers. -/
def isNumberChar (c : Char) : Bool := extendsNumber c || c == '-' || c == '+'

theorem IsNumberLiteral.isNumberChar {literal : List Char} (h : IsNumberLiteral literal) :
    ∀ c ∈ literal, isNumberChar c := by
  have hdigits {cs : List Char} (h : IsDigits cs) : ∀ c ∈ cs, Json.isNumberChar c :=
    fun c hc => by simp [Json.isNumberChar, extendsNumber, h.2 c hc]
  have hsign {cs : List Char} (h : IsSign cs) : ∀ c ∈ cs, Json.isNumberChar c := by
    obtain rfl | rfl | rfl := h <;> simp [Json.isNumberChar]
  obtain ⟨sign, whole, part, exponent, hs, hw, hp, he, rfl⟩ := h
  simp only [List.forall_mem_append]
  refine ⟨hsign hs, hdigits hw, ?_, ?_⟩
  · obtain rfl | ⟨digits, hd, rfl⟩ := hp
    · simp
    · exact List.forall_mem_cons.mpr ⟨rfl, hdigits hd⟩
  · obtain rfl | ⟨mark, sign, digits, hmark, hs, hd, rfl⟩ := he
    · simp
    · refine List.forall_mem_cons.mpr ⟨?_, List.forall_mem_append.mpr ⟨hsign hs, hdigits hd⟩⟩
      obtain rfl | rfl := hmark <;> rfl

theorem isBlank_of_isNumberChar {c : Char} (h : isNumberChar c) : isBlank c = false := by
  simp only [isNumberChar, extendsNumber, Bool.or_eq_true, beq_iff_eq] at h
  obtain ((((h | rfl) | rfl) | rfl) | rfl) | rfl := h
  · exact isBlank_of_isDigit h
  all_goals rfl

theorem IsNumberLiteral.ne_nil {literal : List Char} (h : IsNumberLiteral literal) :
    literal ≠ [] := by
  obtain ⟨sign, whole, part, exponent, -, hw, -, -, rfl⟩ := h
  simp [hw.1]

theorem isNumberLiteral_of_isNumeral {cs : List Char} (h : IsNumeral cs) (negative : Bool) :
    IsNumberLiteral ((if negative then ['-'] else []) ++ cs) := by
  obtain ⟨whole, part, hw, hp, rfl⟩ := h
  have hsign : IsSign (if negative then ['-'] else []) := by cases negative <;> simp [IsSign]
  exact ⟨_, whole, part, [], hsign, hw, hp, .inl rfl, by simp⟩

/-! ## Reading a literal -/

section

variable {rest : List Char} (hrest : Stops extendsNumber rest)

theorem sign_append {sign : List Char} (h : IsSign sign) {d : Char} (hd : d.isDigit)
    (rest : List Char) : Literal.sign (sign ++ d :: rest) = sign := by
  obtain ⟨hminus, hplus⟩ := ne_sign_of_isDigit hd
  obtain rfl | rfl | rfl := h
  · simp [Literal.sign, hminus, hplus]
  · rfl
  · rfl

include hrest

theorem stops_isDigit_append {exponent : List Char} (h : IsExponent exponent) :
    Stops Char.isDigit (exponent ++ rest) := by
  obtain rfl | ⟨mark, sign, digits, rfl | rfl, -, -, rfl⟩ := h
  · exact hrest.mono fun c hc => by simp [extendsNumber, hc]
  · simp [Char.isDigit]
  · simp [Char.isDigit]

theorem fraction_append {part exponent : List Char} (h : IsFraction part) (he : IsExponent exponent) :
    Literal.fraction (part ++ (exponent ++ rest)) = part := by
  have hdigit := stops_isDigit_append hrest he
  obtain rfl | ⟨digits, hdigits, rfl⟩ := h
  · obtain rfl | ⟨mark, sign, digits, rfl | rfl, -, -, rfl⟩ := he
    · cases rest with
      | nil => rfl
      | cons c rest =>
        have hc : c ≠ '.' := by
          rintro rfl
          simp [extendsNumber] at hrest
        simp [Literal.fraction, hc]
    · rfl
    · rfl
  · have htake := takeWhile_append_of_stops hdigits.2 hdigit
    simp [Literal.fraction, htake, hdigits.1]

theorem exponent_append {exponent : List Char} (h : IsExponent exponent) :
    Literal.exponent (exponent ++ rest) = exponent := by
  have hstops : Stops Char.isDigit rest := hrest.mono fun c hc => by simp [extendsNumber, hc]
  have hmark (mark : Char) (sign digits : List Char) (hmark : mark = 'e' ∨ mark = 'E')
      (hsign : IsSign sign) (hdigits : IsDigits digits) :
      Literal.exponent (mark :: (sign ++ digits) ++ rest) = mark :: (sign ++ digits) := by
    have htake := takeWhile_append_of_stops hdigits.2 hstops
    obtain ⟨d, ds, rfl⟩ := List.exists_cons_of_ne_nil hdigits.1
    have hread := sign_append hsign (hdigits.2 d List.mem_cons_self) (ds ++ rest)
    simp only [Literal.exponent, List.cons_append, List.append_assoc, hread, List.drop_left]
    rw [List.cons_append] at htake
    rcases hmark with rfl | rfl <;> simp [htake]
  obtain rfl | ⟨mark, sign, digits, hm, hsign, hdigits, rfl⟩ := h
  · cases rest with
    | nil => rfl
    | cons c rest =>
      have hc : c ≠ 'e' ∧ c ≠ 'E' := by
        constructor <;> rintro rfl <;> simp [extendsNumber] at hrest
      simp [Literal.exponent, hc]
  · exact hmark mark sign digits hm hsign hdigits

theorem number?_append {literal : List Char} (h : IsNumberLiteral literal) :
    Literal.number? (literal ++ rest) = some literal := by
  obtain ⟨sign, whole, part, exponent, hsign, hw, hp, he, rfl⟩ := h
  have hread : Literal.sign (sign ++ (whole ++ (part ++ (exponent ++ rest)))) = sign := by
    obtain ⟨d, ds, rfl⟩ := List.exists_cons_of_ne_nil hw.1
    exact sign_append hsign (hw.2 d List.mem_cons_self) _
  have hstops : Stops Char.isDigit (part ++ (exponent ++ rest)) := by
    obtain rfl | ⟨digits, -, rfl⟩ := hp
    · exact stops_isDigit_append hrest he
    · simp [Char.isDigit]
  simp only [Literal.number?, List.append_assoc, hread, List.drop_left,
    takeWhile_append_of_stops hw.2 hstops, dropWhile_append_of_stops hw.2 hstops,
    fraction_append hrest hp he, exponent_append hrest he]
  simp [hw.1]

end

/-! ## What is read is a literal -/

theorem isDigits_takeWhile {cs : List Char} (h : ¬(cs.takeWhile Char.isDigit).isEmpty) :
    IsDigits (cs.takeWhile Char.isDigit) :=
  ⟨fun hnil => h (by rw [hnil]; rfl), fun _ hc => List.mem_takeWhile_imp hc⟩

theorem isSign_sign (cs : List Char) : IsSign (Literal.sign cs) ∧ Literal.sign cs <+: cs := by
  unfold Literal.sign IsSign
  split <;> simp

theorem isFraction_fraction {cs : List Char} (hcs : Stops Char.isDigit cs) :
    IsFraction (Literal.fraction cs) ∧ Literal.fraction cs <+: cs ∧
      Stops Char.isDigit (cs.drop (Literal.fraction cs).length) := by
  unfold Literal.fraction
  split
  · dsimp only
    split_ifs with hdigits
    · exact ⟨.inl rfl, List.nil_prefix, hcs⟩
    · refine ⟨.inr ⟨_, isDigits_takeWhile hdigits, rfl⟩,
        (List.prefix_cons_inj _).mpr (List.takeWhile_prefix _), ?_⟩
      rw [List.length_cons, List.drop_succ_cons, drop_length_takeWhile]
      exact stops_dropWhile _ _
  · exact ⟨.inl rfl, List.nil_prefix, hcs⟩

theorem isExponent_exponent {cs : List Char} (hcs : Stops Char.isDigit cs) :
    IsExponent (Literal.exponent cs) ∧ Literal.exponent cs <+: cs ∧
      Stops Char.isDigit (cs.drop (Literal.exponent cs).length) := by
  unfold Literal.exponent
  split
  · rename_i mark tail
    obtain ⟨hsign, hfront⟩ := isSign_sign tail
    have htail := List.prefix_iff_eq_append.mp hfront
    dsimp only
    split_ifs with hmark hdigits
    · exact ⟨.inl rfl, List.nil_prefix, hcs⟩
    · refine ⟨.inr ⟨mark, _, _, by simpa using hmark, hsign, isDigits_takeWhile hdigits, rfl⟩, ?_, ?_⟩
      · refine (List.prefix_cons_inj _).mpr ?_
        conv_rhs => rw [← htail]
        exact (List.prefix_append_right_inj _).mpr (List.takeWhile_prefix _)
      · rw [List.length_cons, List.drop_succ_cons, List.length_append, ← List.drop_drop,
          drop_length_takeWhile]
        exact stops_dropWhile _ _
    · exact ⟨.inl rfl, List.nil_prefix, hcs⟩
  · exact ⟨.inl rfl, List.nil_prefix, hcs⟩

theorem exists_of_number? {cs literal : List Char} (h : Literal.number? cs = some literal) :
    IsNumberLiteral literal ∧ ∃ rest, cs = literal ++ rest ∧ Stops Char.isDigit rest := by
  obtain ⟨hsign, hsigned⟩ := isSign_sign cs
  have hcs := List.prefix_iff_eq_append.mp hsigned
  simp only [Literal.number?] at h
  generalize cs.drop (Literal.sign cs).length = unsigned at h hcs
  obtain ⟨hpart, hpartPrefix, hstops⟩ := isFraction_fraction (stops_dropWhile Char.isDigit unsigned)
  have hunsigned := List.takeWhile_append_dropWhile (p := Char.isDigit) (l := unsigned)
  have htail := List.prefix_iff_eq_append.mp hpartPrefix
  generalize (unsigned.dropWhile Char.isDigit).drop _ = tail at h hstops htail
  obtain ⟨hexponent, hexponentPrefix, hend⟩ := isExponent_exponent hstops
  have hrest := List.prefix_iff_eq_append.mp hexponentPrefix
  split_ifs at h with hdigits
  obtain rfl := Option.some.inj h
  refine ⟨⟨_, _, _, _, hsign, isDigits_takeWhile hdigits, hpart, hexponent, by simp⟩, _, ?_, hend⟩
  rw [List.append_assoc, List.append_assoc, List.append_assoc, hrest, htail, hunsigned, hcs]

theorem IsNumberLiteral.isSome_read? {literal : List Char} (h : IsNumberLiteral literal) :
    (Double.read? literal).isSome := by
  obtain ⟨sign, whole, part, exponent, hsign, hw, hp, he, rfl⟩ := h
  refine Double.isSome_read?_iff.mpr ⟨sign, _, hsign, .inr ?_, rfl⟩
  obtain rfl | ⟨digits, hdigits, rfl⟩ := hp
  · exact .whole hw he
  · exact .point hw.2 hdigits.2 (.inl hw.1) he

end Dialects.Json
