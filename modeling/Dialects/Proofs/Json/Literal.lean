import Dialects.Json.Literal
import Dialects.Json.Write
import Dialects.Proofs.Text

/-!
# String literals

What a string literal is read as is told by the spellings of its characters. What the writer puts for
a string spells it.
-/

namespace Dialects.Json

open Dialects.Text

/-! ## Spelled characters -/

/-- Whether four characters are the digits of a code unit. -/
def SpellsUnit (digits : List Char) (unit : Nat) : Prop :=
  digits.length = 4 ∧ Literal.codeUnit? digits = some unit

/-- How a character may stand in a string literal: as itself, or as an escape by a letter, by a code
unit or by two. -/
inductive SpellsChar : List Char → Char → Prop
  | plain {c : Char} (hquote : c ≠ '"') (hslash : c ≠ '\\') : SpellsChar [c] c
  | letter {c d : Char} (h : Literal.simpleEscape? c = some d) : SpellsChar ['\\', c] d
  | unit {digits : List Char} {unit : Nat} (h : SpellsUnit digits unit)
    (hhigh : Literal.isHighSurrogate unit = false) (hlow : Literal.isLowSurrogate unit = false) :
    SpellsChar ('\\' :: 'u' :: digits) (Char.ofNat unit)
  | surrogates {highDigits lowDigits : List Char} {high low : Nat} (h : SpellsUnit highDigits high)
    (h' : SpellsUnit lowDigits low) (hhigh : Literal.isHighSurrogate high)
    (hlow : Literal.isLowSurrogate low) :
    SpellsChar ('\\' :: 'u' :: (highDigits ++ '\\' :: 'u' :: lowDigits))
      (Literal.ofSurrogates high low)

inductive SpellsText : List Char → List Char → Prop
  | nil : SpellsText [] []
  | cons {cs ds : List Char} {c : Char} {text : List Char} (h : SpellsChar cs c)
    (ht : SpellsText ds text) : SpellsText (cs ++ ds) (c :: text)

theorem SpellsChar.ne_nil {cs : List Char} {c : Char} (h : SpellsChar cs c) : cs ≠ [] := by
  cases h <;> simp

/-! ## Escapes -/

theorem codeUnit?_eq_some_iff {cs : List Char} {unit : Nat} : Literal.codeUnit? cs = some unit ↔
    ∃ digits rest, cs = digits ++ rest ∧ SpellsUnit digits unit := by
  constructor
  · intro h
    match cs, h with
    | a :: b :: c :: d :: rest, h => exact ⟨[a, b, c, d], rest, rfl, rfl, h⟩
  · rintro ⟨digits, rest, rfl, hlength, h⟩
    match digits, hlength with
    | [a, b, c, d], _ => exact h

theorem SpellsUnit.codeUnit?_append {digits : List Char} {unit : Nat} (h : SpellsUnit digits unit)
    (rest : List Char) : Literal.codeUnit? (digits ++ rest) = some unit :=
  codeUnit?_eq_some_iff.mpr ⟨digits, rest, rfl, h⟩

theorem exists_of_unicodeEscape {cs : List Char} {d : Char} {n : Nat}
    (h : Literal.unicodeEscape cs = .ok (d, n)) :
    ∃ esc rest, cs = esc ++ rest ∧ SpellsChar ('\\' :: 'u' :: esc) d ∧ n = esc.length + 2 := by
  cases hunit : Literal.codeUnit? cs with
  | none => simp [Literal.unicodeEscape, hunit] at h
  | some unit =>
    obtain ⟨digits, rest, rfl, hdigits⟩ := codeUnit?_eq_some_iff.mp hunit
    simp only [Literal.unicodeEscape, hunit, ← hdigits.1, List.drop_left] at h
    split_ifs at h with hhigh hlow
    · split at h
      · rename_i tail
        cases hunit' : Literal.codeUnit? tail with
        | none => simp [hunit'] at h
        | some low =>
          obtain ⟨lowDigits, rest, rfl, hlowDigits⟩ := codeUnit?_eq_some_iff.mp hunit'
          simp only [hunit'] at h
          split_ifs at h with hlow
          obtain ⟨rfl, rfl⟩ := by simpa using h
          exact ⟨digits ++ '\\' :: 'u' :: lowDigits, rest, by simp,
            .surrogates hdigits hlowDigits hhigh hlow, by simp [hdigits.1, hlowDigits.1]⟩
      · simp at h
    · obtain ⟨rfl, rfl⟩ := by simpa using h
      exact ⟨digits, rest, rfl, .unit hdigits (by simpa using hhigh) (by simpa using hlow),
        by simp [hdigits.1]⟩

theorem exists_of_escape {cs : List Char} {d : Char} {n : Nat}
    (h : Literal.escape cs = .ok (d, n)) :
    ∃ esc rest, cs = esc ++ rest ∧ SpellsChar ('\\' :: esc) d ∧ n = esc.length + 1 := by
  unfold Literal.escape at h
  split at h
  · simp at h
  · rename_i tail
    cases hunicode : Literal.unicodeEscape tail with
    | error k => simp [hunicode] at h
    | ok spelled =>
      obtain rfl : spelled = (d, n) := by simpa [hunicode] using h
      obtain ⟨esc, rest, rfl, hspells, rfl⟩ := exists_of_unicodeEscape hunicode
      exact ⟨'u' :: esc, rest, rfl, hspells, rfl⟩
  · rename_i c tail _
    cases hsimple : Literal.simpleEscape? c with
    | none => simp [hsimple] at h
    | some e =>
      obtain ⟨rfl, rfl⟩ := by simpa [hsimple] using h
      exact ⟨[c], tail, rfl, .letter hsimple, rfl⟩

theorem escape_append {esc : List Char} {d : Char} (h : SpellsChar ('\\' :: esc) d)
    (rest : List Char) : Literal.escape (esc ++ rest) = .ok (d, esc.length + 1) := by
  generalize hcs : '\\' :: esc = cs at h
  cases h with
  | plain hquote hslash => exact absurd (List.cons.inj hcs).1.symm hslash
  | @letter c d h =>
    obtain rfl := (List.cons.inj hcs).2
    unfold Literal.escape
    split
    · rename_i hnil
      simp at hnil
    · rename_i heq
      obtain rfl := (List.cons.inj heq).1
      simp [Literal.simpleEscape?] at h
    · rename_i heq
      obtain rfl := (List.cons.inj heq).1
      simp [h]
  | @unit digits unit h hhigh hlow =>
    obtain rfl := (List.cons.inj hcs).2
    simp [Literal.escape, Literal.unicodeEscape, h.codeUnit?_append, hhigh, hlow, h.1]
  | @surrogates highDigits lowDigits high low h h' hhigh hlow =>
    obtain rfl := (List.cons.inj hcs).2
    have hdrop (tail : List Char) : (highDigits ++ tail).drop 4 = tail := by
      rw [← h.1, List.drop_left]
    simp [Literal.escape, Literal.unicodeEscape, h.codeUnit?_append, h'.codeUnit?_append, hhigh, hlow,
      hdrop, h.1, h'.1]

/-! ## Whole strings -/

theorem stringBody_spelled {cs : List Char} {c : Char} (h : SpellsChar cs c) (n taken : Nat)
    (text rest : List Char) : Literal.stringBody (n + 1) taken text (cs ++ rest) =
      Literal.stringBody n (taken + cs.length) (c :: text) rest := by
  by_cases hslash : ∃ esc, cs = '\\' :: esc
  · obtain ⟨esc, rfl⟩ := hslash
    simp [Literal.stringBody, escape_append h]
  · cases h with
    | plain hquote hne => simp [Literal.stringBody, hquote, hne]
    | _ => simp at hslash

theorem stringBody_append {body tail : List Char} (h : SpellsText body tail) {n : Nat}
    (hn : body.length < n) (taken : Nat) (text rest : List Char) :
    Literal.stringBody n taken text (body ++ '"' :: rest) =
      .ok (text.reverse ++ tail, taken + body.length + 1) := by
  induction h generalizing n taken text with
  | nil =>
    obtain ⟨n, rfl⟩ := Nat.exists_eq_succ_of_ne_zero (by omega : n ≠ 0)
    simp [Literal.stringBody]
  | @cons cs ds c tail h ht ih =>
    obtain ⟨n, rfl⟩ := Nat.exists_eq_succ_of_ne_zero (by omega : n ≠ 0)
    have hpos := List.length_pos_of_ne_nil h.ne_nil
    rw [List.length_append] at hn
    rw [List.append_assoc, stringBody_spelled h, ih (by omega)]
    simp [Nat.add_assoc]

theorem exists_of_stringBody {n taken length : Nat} {text cs s : List Char}
    (h : Literal.stringBody n taken text cs = .ok (s, length)) :
    ∃ body tail rest, cs = body ++ '"' :: rest ∧ SpellsText body tail ∧
      s = text.reverse ++ tail ∧ length = taken + body.length + 1 := by
  induction n generalizing taken text cs with
  | zero => simp [Literal.stringBody] at h
  | succ n ih =>
    cases cs with
    | nil => simp [Literal.stringBody] at h
    | cons c cs =>
      simp only [Literal.stringBody, beq_iff_eq] at h
      split_ifs at h with hquote hslash
      · obtain ⟨rfl, rfl⟩ := by simpa using h
        exact ⟨[], [], cs, by simp [hquote], .nil, by simp, rfl⟩
      · cases hescape : Literal.escape cs with
        | error e => simp [hescape] at h
        | ok spelled =>
          obtain ⟨d, k⟩ := spelled
          obtain ⟨esc, rest, rfl, hspells, rfl⟩ := exists_of_escape hescape
          simp only [hescape, Nat.add_sub_cancel, List.drop_left] at h
          obtain ⟨body, tail, rest, rfl, hbody, rfl, rfl⟩ := ih h
          exact ⟨'\\' :: esc ++ body, d :: tail, rest, by simp [hslash], .cons hspells hbody, by simp,
            by simp; omega⟩
      · obtain ⟨body, tail, rest, rfl, hbody, rfl, rfl⟩ := ih h
        exact ⟨[c] ++ body, c :: tail, rest, by simp, .cons (.plain hquote hslash) hbody, by simp,
          by simp; omega⟩

theorem string_eq_ok_iff {cs text : List Char} {length : Nat} :
    Literal.string cs = .ok (text, length) ↔
      ∃ body rest, cs = body ++ '"' :: rest ∧ SpellsText body text ∧ length = body.length + 2 := by
  constructor
  · intro h
    obtain ⟨body, tail, rest, rfl, hbody, rfl, rfl⟩ := exists_of_stringBody h
    exact ⟨body, rest, rfl, by simpa using hbody, by omega⟩
  · rintro ⟨body, rest, rfl, hbody, rfl⟩
    have hlength : body.length < (body ++ '"' :: rest).length + 1 := by
      simp only [List.length_append, List.length_cons]
      omega
    rw [Literal.string, stringBody_append hbody hlength]
    simp [Nat.add_comm, Nat.add_left_comm]

theorem SpellsText.append_inj {body body' text text' rest rest' : List Char}
    (h : SpellsText body text) (h' : SpellsText body' text')
    (heq : body ++ '"' :: rest = body' ++ '"' :: rest') : body = body' ∧ rest = rest' := by
  have hread := string_eq_ok_iff.mpr ⟨body, rest, rfl, h, rfl⟩
  have hread' := string_eq_ok_iff.mpr ⟨body', rest', rfl, h', rfl⟩
  rw [heq, hread'] at hread
  obtain ⟨-, hlength⟩ := by simpa using hread
  obtain ⟨hbody, hrest⟩ := List.append_inj heq (by omega)
  exact ⟨hbody, (List.cons.inj hrest).2⟩

/-! ## Written strings -/

theorem hexDigit?_digitChar : ∀ d < 16, Literal.hexDigit? (Nat.digitChar d) = some d := by decide

theorem spellsUnit_hexDigits4 {n : Nat} (h : n < 0x10000) : SpellsUnit (hexDigits4 n) n := by
  have h0 := hexDigit?_digitChar (n / 0x1000 % 16) (by omega)
  have h1 := hexDigit?_digitChar (n / 0x100 % 16) (by omega)
  have h2 := hexDigit?_digitChar (n / 0x10 % 16) (by omega)
  have h3 := hexDigit?_digitChar (n % 16) (by omega)
  refine ⟨rfl, ?_⟩
  simp only [hexDigits4, List.map_cons, List.map_nil, Literal.codeUnit?, h0, h1, h2, h3,
    Option.bind_eq_bind, Option.bind_some, Option.some.injEq]
  omega

theorem spellsChar_hexDigits4 {c : Char} (h : isControl c) :
    SpellsChar ('\\' :: 'u' :: hexDigits4 c.toNat) c := by
  have hlt : c.toNat < 0xA0 := by
    simp only [isControl, Bool.or_eq_true, Bool.and_eq_true, decide_eq_true_eq] at h
    omega
  have hhigh : Literal.isHighSurrogate c.toNat = false := by
    simp only [Literal.isHighSurrogate, Bool.and_eq_false_iff, decide_eq_false_iff_not]
    omega
  have hlow : Literal.isLowSurrogate c.toNat = false := by
    simp only [Literal.isLowSurrogate, Bool.and_eq_false_iff, decide_eq_false_iff_not]
    omega
  have hunit := SpellsChar.unit (spellsUnit_hexDigits4 (show c.toNat < 0x10000 by omega)) hhigh hlow
  rwa [Char.ofNat_toNat] at hunit

theorem spellsChar_writeChar (c : Char) : SpellsChar (writeChar c) c := by
  simp only [writeChar, beq_iff_eq]
  split_ifs with hquote hslash hb hf hn hr ht hcontrol
  · exact .letter (by rw [hquote]; rfl)
  · exact .letter (by rw [hslash]; rfl)
  · exact .letter (by rw [hb]; rfl)
  · exact .letter (by rw [hf]; rfl)
  · exact .letter (by rw [hn]; rfl)
  · exact .letter (by rw [hr]; rfl)
  · exact .letter (by rw [ht]; rfl)
  · exact spellsChar_hexDigits4 hcontrol
  · exact .plain hquote hslash

theorem spellsText_flatMap (text : List Char) : SpellsText (text.flatMap writeChar) text := by
  induction text with
  | nil => exact .nil
  | cons c text ih => exact .cons (spellsChar_writeChar c) ih

end Dialects.Json
