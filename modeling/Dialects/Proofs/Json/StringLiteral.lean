import Dialects.Proofs.Json.Orthography

/-!
# String literals

A character may be spelled in several ways between the quotes of a literal. Every spelling of a text
is read as that text, and a literal that is read is made of such spellings.
-/

namespace Dialects.Json

open Dialects.Text

/-! ## Digits in base sixteen -/

/-- Whether a character is the digit of a number, in either case. -/
def IsHexDigit (c : Char) (n : Nat) : Prop :=
  "0123456789abcdef".toList[n]? = some c ∨ "0123456789ABCDEF".toList[n]? = some c

/-- Whether characters are the four digits of a code unit. -/
def IsCodeUnit (digits : List Char) (unit : Nat) : Prop :=
  ∃ a b c d i j k l, digits = [a, b, c, d] ∧
    (IsHexDigit a i ∧ IsHexDigit b j ∧ IsHexDigit c k ∧ IsHexDigit d l) ∧
    unit = i * 0x1000 + j * 0x100 + k * 0x10 + l

theorem isHexDigit_of_toNat {c : Char} {n : Nat} (h : n < 16)
    (hc : n < 10 ∧ c.toNat = 48 + n ∨ 10 ≤ n ∧ (c.toNat = 87 + n ∨ c.toNat = 55 + n)) :
    IsHexDigit c n := by
  have hchar {k : Nat} (hk : c.toNat = k) : c = Char.ofNat k := by rw [← hk, Char.ofNat_toNat]
  unfold IsHexDigit
  obtain ⟨hn, hc⟩ | ⟨hn, hc | hc⟩ := hc <;> rw [hchar hc] <;> interval_cases n <;> decide

theorem IsHexDigit.lt {c : Char} {n : Nat} (h : IsHexDigit c n) : n < 16 := by
  obtain h | h := h <;> exact (List.getElem?_eq_some_iff.mp h).1

theorem IsHexDigit.hexDigit?_eq {c : Char} {n : Nat} (h : IsHexDigit c n) :
    Literal.hexDigit? c = some n := by
  have hn := h.lt
  obtain h | h := h
  all_goals
    interval_cases n <;> obtain rfl := Option.some.inj h <;> rfl

theorem hexDigit?_eq_some_iff {c : Char} {n : Nat} :
    Literal.hexDigit? c = some n ↔ IsHexDigit c n := by
  refine ⟨fun h => ?_, fun h => h.hexDigit?_eq⟩
  have hle (a b : Char) : a ≤ b ↔ a.toNat ≤ b.toNat := Iff.rfl
  simp only [Literal.hexDigit?, Bool.and_eq_true, decide_eq_true_eq, hle, Char.reduceToNat] at h
  split_ifs at h with hdigit hlower hupper
  · obtain rfl := Option.some.inj h
    exact isHexDigit_of_toNat (by omega) (.inl (by omega))
  · obtain rfl := Option.some.inj h
    exact isHexDigit_of_toNat (by omega) (.inr (by omega))
  · obtain rfl := Option.some.inj h
    exact isHexDigit_of_toNat (by omega) (.inr (by omega))

theorem codeUnit?_four_eq_some_iff {a b c d : Char} {unit : Nat} :
    Literal.codeUnit? [a, b, c, d] = some unit ↔ IsCodeUnit [a, b, c, d] unit := by
  simp only [Literal.codeUnit?, Option.bind_eq_bind, Option.bind_eq_some_iff, Option.some.injEq,
    hexDigit?_eq_some_iff]
  constructor
  · rintro ⟨i, hi, j, hj, k, hk, l, hl, rfl⟩
    exact ⟨a, b, c, d, i, j, k, l, rfl, ⟨hi, hj, hk, hl⟩, by omega⟩
  · rintro ⟨_, _, _, _, i, j, k, l, ⟨⟩, ⟨hi, hj, hk, hl⟩, rfl⟩
    exact ⟨i, hi, j, hj, k, hk, l, hl, by omega⟩

theorem spellsUnit_iff {digits : List Char} {unit : Nat} :
    SpellsUnit digits unit ↔ IsCodeUnit digits unit := by
  constructor
  · rintro ⟨hlength, h⟩
    rcases digits with _ | ⟨a, _ | ⟨b, _ | ⟨c, _ | ⟨d, _ | ⟨e, rest⟩⟩⟩⟩⟩ <;> simp at hlength
    exact codeUnit?_four_eq_some_iff.mp h
  · rintro ⟨a, b, c, d, i, j, k, l, rfl, hdigits⟩
    exact ⟨rfl, codeUnit?_four_eq_some_iff.mpr ⟨a, b, c, d, i, j, k, l, rfl, hdigits⟩⟩

theorem IsCodeUnit.lt {digits : List Char} {unit : Nat} (h : IsCodeUnit digits unit) :
    unit < 0x10000 := by
  obtain ⟨a, b, c, d, i, j, k, l, -, ⟨hi, hj, hk, hl⟩, rfl⟩ := h
  have := hi.lt
  have := hj.lt
  have := hk.lt
  have := hl.lt
  omega

/-! ## Characters of a literal -/

/-- The letters of the escapes of one letter, and what they stand for. -/
def letterEscapes : List (Char × Char) :=
  [('"', '"'), ('\\', '\\'), ('/', '/'), ('b', '\x08'), ('f', '\x0c'), ('n', '\n'), ('r', '\r'),
    ('t', '\t')]

theorem simpleEscape?_eq_some_iff {c d : Char} :
    Literal.simpleEscape? c = some d ↔ (c, d) ∈ letterEscapes := by
  unfold letterEscapes
  constructor
  · intro h
    simp only [Literal.simpleEscape?, Bool.or_eq_true, beq_iff_eq] at h
    split_ifs at h with hself
    · obtain rfl := Option.some.inj h
      rcases hself with (rfl | rfl) | rfl <;> simp
    all_goals
      obtain rfl := Option.some.inj h
      subst c
      simp
  · intro h
    simp only [List.mem_cons, Prod.mk.injEq, List.not_mem_nil, or_false] at h
    rcases h with ⟨rfl, rfl⟩ | ⟨rfl, rfl⟩ | ⟨rfl, rfl⟩ | ⟨rfl, rfl⟩ | ⟨rfl, rfl⟩ | ⟨rfl, rfl⟩ | ⟨rfl, rfl⟩ |
      ⟨rfl, rfl⟩ <;> rfl

/-- Whether characters between the quotes of a literal stand for a character: itself, or an escape by a
letter, by the code unit that is its number, or by the two surrogates that encode it. -/
inductive Denotes : List Char → Char → Prop
  | itself {c : Char} (hquote : c ≠ '"') (hslash : c ≠ '\\') : Denotes [c] c
  | letter {c d : Char} (h : (c, d) ∈ letterEscapes) : Denotes ['\\', c] d
  | unit {digits : List Char} {c : Char} (h : IsCodeUnit digits c.toNat) :
    Denotes ('\\' :: 'u' :: digits) c
  | surrogates {highDigits lowDigits : List Char} {high low : Nat} {c : Char}
    (h : IsCodeUnit highDigits high) (h' : IsCodeUnit lowDigits low)
    (hhigh : 0xD800 ≤ high ∧ high < 0xDC00) (hlow : 0xDC00 ≤ low ∧ low < 0xE000)
    (hc : c.toNat = 0x10000 + (high - 0xD800) * 0x400 + (low - 0xDC00)) :
    Denotes ('\\' :: 'u' :: (highDigits ++ '\\' :: 'u' :: lowDigits)) c

theorem isHighSurrogate_iff {unit : Nat} :
    Literal.isHighSurrogate unit ↔ 0xD800 ≤ unit ∧ unit < 0xDC00 := by
  simp [Literal.isHighSurrogate]

theorem isLowSurrogate_iff {unit : Nat} :
    Literal.isLowSurrogate unit ↔ 0xDC00 ≤ unit ∧ unit < 0xE000 := by
  simp [Literal.isLowSurrogate]

theorem toNat_ofNat_of_unit {unit : Nat} (hlt : unit < 0x10000)
    (hhigh : Literal.isHighSurrogate unit = false) (hlow : Literal.isLowSurrogate unit = false) :
    (Char.ofNat unit).toNat = unit := by
  rw [← Bool.not_eq_true, isHighSurrogate_iff] at hhigh
  rw [← Bool.not_eq_true, isLowSurrogate_iff] at hlow
  rw [Char.toNat_ofNat, if_pos]
  unfold Nat.isValidChar
  omega

theorem not_isSurrogate_toNat (c : Char) :
    Literal.isHighSurrogate c.toNat = false ∧ Literal.isLowSurrogate c.toNat = false := by
  have hvalid : Nat.isValidChar c.toNat := c.valid
  unfold Nat.isValidChar at hvalid
  rw [← Bool.not_eq_true, ← Bool.not_eq_true, isHighSurrogate_iff, isLowSurrogate_iff]
  omega

theorem toNat_ofSurrogates {high low : Nat} (hhigh : 0xD800 ≤ high ∧ high < 0xDC00)
    (hlow : 0xDC00 ≤ low ∧ low < 0xE000) : (Literal.ofSurrogates high low).toNat =
      0x10000 + (high - 0xD800) * 0x400 + (low - 0xDC00) := by
  rw [Literal.ofSurrogates, Char.toNat_ofNat, if_pos]
  unfold Nat.isValidChar
  omega

theorem spellsChar_iff {cs : List Char} {c : Char} : SpellsChar cs c ↔ Denotes cs c := by
  constructor
  · intro h
    cases h with
    | plain hquote hslash => exact .itself hquote hslash
    | letter h => exact .letter (simpleEscape?_eq_some_iff.mp h)
    | @unit digits unit h hhigh hlow =>
      have hunit := spellsUnit_iff.mp h
      exact .unit (by rwa [toNat_ofNat_of_unit hunit.lt hhigh hlow])
    | surrogates h h' hhigh hlow =>
      rw [isHighSurrogate_iff] at hhigh
      rw [isLowSurrogate_iff] at hlow
      exact .surrogates (spellsUnit_iff.mp h) (spellsUnit_iff.mp h') hhigh hlow
        (toNat_ofSurrogates hhigh hlow)
  · intro h
    cases h with
    | itself hquote hslash => exact .plain hquote hslash
    | letter h => exact .letter (simpleEscape?_eq_some_iff.mpr h)
    | @unit digits c h =>
      -- The number of a character is no surrogate.
      obtain ⟨hhigh, hlow⟩ := not_isSurrogate_toNat c
      have hunit := SpellsChar.unit (spellsUnit_iff.mpr h) hhigh hlow
      rwa [Char.ofNat_toNat] at hunit
    | @surrogates highDigits lowDigits high low c h h' hhigh hlow hc =>
      rw [← toNat_ofSurrogates hhigh hlow] at hc
      rw [Char.toNat_inj.mp hc]
      exact .surrogates (spellsUnit_iff.mpr h) (spellsUnit_iff.mpr h') (isHighSurrogate_iff.mpr hhigh)
        (isLowSurrogate_iff.mpr hlow)

theorem spellsText_iff {body text : List Char} : SpellsText body text ↔
    ∃ spellings : List (List Char), body = spellings.flatten ∧ List.Forall₂ Denotes spellings text := by
  constructor
  · intro h
    induction h with
    | nil => exact ⟨[], rfl, .nil⟩
    | @cons cs ds c text h ht ih =>
      obtain ⟨spellings, rfl, hall⟩ := ih
      exact ⟨cs :: spellings, rfl, .cons (spellsChar_iff.mp h) hall⟩
  · rintro ⟨spellings, rfl, hall⟩
    induction hall with
    | nil => exact .nil
    | cons h _ ih => exact .cons (spellsChar_iff.mpr h) ih

/-! ## String tokens -/

theorem next_append_blanks {blanks cs : List Char} (hblanks : ∀ b ∈ blanks, isBlank b) (offset : Nat) :
    next ⟨offset, blanks ++ '"' :: cs⟩ = next ⟨offset + byteLength blanks, '"' :: cs⟩ := by
  have hskip : (⟨offset, blanks ++ '"' :: cs⟩ : Cursor).skipBlanks =
      ⟨offset + byteLength blanks, '"' :: cs⟩ :=
    Cursor.skipBlanks_append hblanks (stops_cons.mpr rfl) offset
  have h := LawfulLexicon.next_skipBlanks (σ := Symbol) ⟨offset, blanks ++ '"' :: cs⟩
  rw [hskip] at h
  exact h.symm

theorem exists_spellsText_of_next {offset : Nat} {cs : List Char} {c' : Cursor} {t : Token Symbol}
    (h : next ⟨offset, '"' :: cs⟩ = (.ok t, c')) :
    ∃ body text rest, cs = body ++ '"' :: rest ∧ SpellsText body text := by
  rw [next_quote, nextString] at h
  cases hread : Literal.string cs with
  | error halt => simp [hread] at h
  | ok read =>
    obtain ⟨body, rest, hcs, hbody, -⟩ := string_eq_ok_iff.mp hread
    exact ⟨body, read.1, rest, hcs, hbody⟩

/-- A string is read exactly if what follows its quote starts with spelled characters and a quote. It is
the string of the characters, and the cursor gets right behind the closing quote. -/
theorem next_eq_ok_iff_of_quote {c c' : Cursor} {t : Token Symbol} {blanks cs : List Char}
    (hblanks : ∀ b ∈ blanks, isBlank b) (hrest : c.rest = blanks ++ '"' :: cs) :
    (next c = (.ok t, c') ↔ ∃ spellings text rest,
      cs = List.flatten spellings ++ '"' :: rest ∧ List.Forall₂ Denotes spellings text ∧
      t = ⟨.string (String.ofList text), c.offset + byteLength blanks⟩ ∧
      c' = ⟨c.offset + byteLength (blanks ++ '"' :: (spellings.flatten ++ ['"'])), rest⟩) ∧
    ∀ high low, 0xD800 ≤ high ∧ high < 0xDC00 → 0xDC00 ≤ low ∧ low < 0xE000 →
      (Literal.ofSurrogates high low).toNat =
        0x10000 + (high - 0xD800) * 0x400 + (low - 0xDC00) := by
  refine ⟨?_, fun high low hhigh hlow => toNat_ofSurrogates hhigh hlow⟩
  obtain ⟨offset, rest⟩ := c
  subst hrest
  rw [next_append_blanks hblanks]
  -- Once the characters are spelled, the reader says what the token and the cursor are.
  have hread {body text : List Char} (hbody : SpellsText body text) (rest : List Char) :
      next ⟨offset + byteLength blanks, '"' :: (body ++ '"' :: rest)⟩ =
        (.ok ⟨.string (String.ofList text), offset + byteLength blanks⟩,
          ⟨offset + byteLength (blanks ++ '"' :: (body ++ ['"'])), rest⟩) := by
    have h := next_string hbody (offset + byteLength blanks) rest
    rw [byteLength_append, ← Nat.add_assoc]
    simpa using h
  constructor
  · intro h
    obtain ⟨body, text, rest, rfl, hbody⟩ := exists_spellsText_of_next h
    rw [hread hbody rest] at h
    obtain ⟨ht, hc⟩ := Prod.mk.inj h
    obtain ⟨spellings, rfl, hall⟩ := spellsText_iff.mp hbody
    exact ⟨spellings, text, rest, rfl, hall, (Except.ok.inj ht).symm, hc.symm⟩
  · rintro ⟨spellings, text, rest, rfl, hall, rfl, rfl⟩
    exact hread (spellsText_iff.mpr ⟨spellings, rfl, hall⟩) rest

/-- Two characters behind a blank, each of them spelled in two ways. -/
theorem next_of_mixed_spellings :
    next (Cursor.start " \"é\\u00E9\\uD83D\\ude00😀\" ") =
      (.ok ⟨.string "éé😀😀", 1⟩, ⟨27, [' ']⟩) := by
  have hblanks : ∀ b ∈ [' '], isBlank b := by simp [isBlank]
  have hunit : IsCodeUnit ['0', '0', 'E', '9'] 'é'.toNat :=
    ⟨_, _, _, _, 0, 0, 14, 9, rfl, by simp [IsHexDigit], rfl⟩
  have hhigh : IsCodeUnit ['D', '8', '3', 'D'] 0xD83D :=
    ⟨_, _, _, _, 13, 8, 3, 13, rfl, by simp [IsHexDigit], rfl⟩
  have hlow : IsCodeUnit ['d', 'e', '0', '0'] 0xDE00 :=
    ⟨_, _, _, _, 13, 14, 0, 0, rfl, by simp [IsHexDigit], rfl⟩
  have hall : List.Forall₂ Denotes
      [['é'], "\\u00E9".toList, "\\uD83D\\ude00".toList, ['😀']] ['é', 'é', '😀', '😀'] :=
    .cons (.itself (by decide) (by decide)) (.cons (.unit hunit)
      (.cons (.surrogates hhigh hlow (by decide) (by decide) rfl)
        (.cons (.itself (by decide) (by decide)) .nil)))
  exact (next_eq_ok_iff_of_quote hblanks rfl).1.mpr ⟨_, _, [' '], rfl, hall, rfl, rfl⟩

end Dialects.Json
