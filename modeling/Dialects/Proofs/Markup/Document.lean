import Dialects.Proofs.Double.Numeral
import Dialects.Proofs.Markup.Scan
import Dialects.Proofs.Reader

/-!
# Markup values as they are written

Integers and texts are read back from leaves, and the symbols of a value are those of its parts.
-/

namespace Dialects.Markup

open Dialects.Text

theorem isPlain_of_forall {cs : List Char} (hne : cs ≠ [])
    (h : ∀ c ∈ cs, isBlank c = false ∧ isBracket c = false) : IsPlain cs :=
  ⟨hne, isTrimmed_of_forall fun c hc => (h c hc).1, fun c hc => (h c hc).2⟩

/-! ## Integers -/

theorem isBracket_of_isDigit {c : Char} (h : c.isDigit) : isBracket c = false := by
  simp only [isBracket, Bool.or_eq_false_iff, beq_eq_false_iff_ne]
  constructor <;> rintro rfl <;> simp [Char.isDigit] at h

theorem isInteger_of_isDigits {cs : List Char} (h : IsDigits cs) (negative : Bool) :
    isInteger ((if negative then ['-'] else []) ++ cs) := by
  obtain ⟨d, cs, rfl⟩ := List.exists_cons_of_ne_nil h.1
  have hdigit : d.isDigit := h.2 d List.mem_cons_self
  have hall : (d :: cs).all Char.isDigit := List.all_eq_true.mpr h.2
  cases negative with
  | true => simpa [isInteger] using hall
  | false =>
    simp only [Bool.false_eq_true, if_false, List.nil_append, isInteger]
    split
    · rename_i heq
      obtain ⟨rfl, -⟩ := List.cons.inj heq
      simp [Char.isDigit] at hdigit
    · rename_i heq
      obtain ⟨rfl, -⟩ := List.cons.inj heq
      simp [Char.isDigit] at hdigit
    · simpa using hall

namespace Integer

theorem value_of_isDigits {cs : List Char} (h : IsDigits cs) :
    value cs = Decimal.digitsValue cs := by
  obtain ⟨d, cs, rfl⟩ := List.exists_cons_of_ne_nil h.1
  have hdigit : d.isDigit := h.2 d List.mem_cons_self
  unfold value
  split
  · rename_i heq
    obtain ⟨rfl, -⟩ := List.cons.inj heq
    simp [Char.isDigit] at hdigit
  · rename_i heq
    obtain ⟨rfl, -⟩ := List.cons.inj heq
    simp [Char.isDigit] at hdigit
  · rfl

theorem value_text (n : Int64) : value (text n) = n.toInt := by
  have hdigits := Decimal.isDigits_digits n.toInt.natAbs
  unfold text
  by_cases hneg : n.toInt < 0
  · simp only [hneg, if_true, List.singleton_append, value, Decimal.digitsValue_digits]
    omega
  · simp only [hneg, if_false, List.nil_append, value_of_isDigits hdigits,
      Decimal.digitsValue_digits]
    omega

theorem read?_text (n : Int64) : read? (text n) = some n := by
  have hmin := Int64.le_toInt n
  have hmax := Int64.toInt_lt n
  have hrange : Int64.minValue.toInt ≤ n.toInt ∧ n.toInt ≤ Int64.maxValue.toInt := by
    rw [Int64.toInt_minValue, Int64.toInt_maxValue]
    omega
  rw [read?, value_text, if_pos hrange, Int64.ofInt_toInt]

theorem isInteger_text (n : Int64) : isInteger (text n) := by
  have := isInteger_of_isDigits (Decimal.isDigits_digits n.toInt.natAbs) (n.toInt < 0)
  simpa [text] using this

theorem isPlain_text (n : Int64) : IsPlain (text n) := by
  obtain ⟨hne, hall⟩ := Decimal.isDigits_digits n.toInt.natAbs
  refine isPlain_of_forall (by simp [text, hne]) fun c hc => ?_
  rcases List.mem_append.mp hc with hc | hc
  · obtain ⟨-, rfl⟩ : n.toInt < 0 ∧ c = '-' := by simpa using hc
    decide
  · exact ⟨isBlank_of_isDigit (hall c hc), isBracket_of_isDigit (hall c hc)⟩

end Integer

/-! ## Texts of leaves -/

/-- Whether the texts of a value, but not those in it, are plain and spell it. -/
def Value.HasPlainText : Value → Prop
  | tagged name _ => IsPlain name.toList
  | string text => IsPlain text.toList ∧ Symbol.ofText text.toList = .string text
  | _ => True

theorem Value.HasPlainText.hasText {v : Value} (h : v.HasPlainText) : v.HasText := by
  cases v with
  | string text => exact h
  | _ => trivial

def Value.leafSymbol : Value → Symbol
  | boolean value => .boolean value
  | number n => .number (String.ofList (Integer.text n))
  | string text => .string text
  | _ => .null

def Value.leafText (v : Value) : List Char := v.write .compact 0

theorem Value.write_leaf {v : Value} (hv : v.isTag = false) (layout : Layout) (depth : Nat) :
    v.write layout depth = v.leafText := by
  cases v with
  | tagged name children => simp [isTag] at hv
  | _ => simp [leafText, write]

theorem Value.isPlain_leafText {v : Value} (hv : v.isTag = false) (h : v.HasPlainText) :
    IsPlain v.leafText := by
  cases v with
  | tagged name children => simp [isTag] at hv
  | null => exact isPlain_of_forall (by simp [leafText, write]) (by simp [leafText, write]; decide)
  | boolean value =>
    cases value
    · exact isPlain_of_forall (by simp [leafText, write]) (by simp [leafText, write]; decide)
    · exact isPlain_of_forall (by simp [leafText, write]) (by simp [leafText, write]; decide)
  | number n => simpa [leafText, write] using Integer.isPlain_text n
  | string text => simpa [leafText, write] using h.1

theorem Value.ofText_leafText {v : Value} (hv : v.isTag = false) (h : v.HasPlainText) :
    Symbol.ofText v.leafText = v.leafSymbol := by
  cases v with
  | tagged name children => simp [isTag] at hv
  | null => simp [leafText, write, leafSymbol, Symbol.ofText, isInteger, Char.isDigit]
  | boolean value =>
    cases value <;> simp [leafText, write, leafSymbol, Symbol.ofText, isInteger, Char.isDigit]
  | number n => simp [leafText, write, leafSymbol, Symbol.ofText, Integer.isInteger_text]
  | string text => simpa [leafText, write, leafSymbol] using h.2

/-! ## Symbols of values -/

namespace Value

/-- The symbols that the writer puts for a value. -/
def symbols : Value → List Symbol :=
  fold (fun v => [v.leafSymbol])
    fun name _ parts => .openTag name :: (parts.flatten ++ [.closeTag name])

/-- The value with each child joined to the first before it that it can be joined to. -/
def joined : Value → Value :=
  fold id fun name _ children => ofTag (children.foldl Tag.add (Tag.empty name))

theorem symbols_tagged (name : String) (children : List Value) :
    (tagged name children).symbols =
      .openTag name :: ((children.map symbols).flatten ++ [.closeTag name]) :=
  fold_tagged _ _ name children

theorem joined_tagged (name : String) (children : List Value) :
    (tagged name children).joined =
      ofTag ((children.map joined).foldl Tag.add (Tag.empty name)) :=
  fold_tagged _ _ name children

theorem name_foldl_add (vs : List Value) (tag : Tag) : (vs.foldl Tag.add tag).name = tag.name := by
  induction vs generalizing tag with
  | nil => rfl
  | cons v vs ih => exact ih (tag.add v)

end Value

/-! ## Where a value may stand -/

namespace State

/-- The state in which a value may stand in some open tags. -/
def before : List Tag → State
  | [] => start
  | tag :: outer => inside tag outer

theorem step_before {t : Token Symbol} (ht : ∀ name, t.symbol ≠ .closeTag name) (tags : List Tag) :
    step (before tags) t = startValue t tags := by
  cases tags with
  | nil => rfl
  | cons tag outer =>
    cases hs : t.symbol with
    | closeTag name => exact absurd hs (ht name)
    | _ => simp only [before, step, hs]

end State

end Dialects.Markup
