import Dialects.Proofs.Json.Located
import Dialects.Proofs.Json.StringLiteral
import Dialects.Proofs.Tiling

/-!
# Tiled JSON texts

A string token covers the text from its quote to the next quote that is not escaped, and all other
tokens cover their lexemes. Numbers are as long as they can be, and words are whole.
-/

namespace Dialects.Json

open Dialects.Text

/-! ## Escaped quotes -/

/-- Whether a character behind others is escaped: an odd number of backslashes stands right in front of
it. -/
def IsEscaped (before : List Char) : Prop := Odd (before.rtakeWhile (· = '\\')).length

/-- Whether a text runs from a quote to the first quote behind it that is not escaped. -/
def IsQuoted (cs : List Char) : Prop :=
  ∃ body, cs = '"' :: (body ++ ['"']) ∧ ¬IsEscaped body ∧
    ∀ before behind, body = before ++ '"' :: behind → IsEscaped before

theorem isEscaped_append_cons {d : Char} (hd : d ≠ '\\') (cs ds : List Char) :
    IsEscaped (cs ++ d :: ds) ↔ IsEscaped ds := by
  have hrun : (cs ++ d :: ds).rtakeWhile (· = '\\') = ds.rtakeWhile (· = '\\') := by
    rw [List.rtakeWhile, List.rtakeWhile, List.reverse_append, List.reverse_cons, List.append_assoc,
      List.singleton_append, takeWhile_append_cons (by simpa using hd)]
  rw [IsEscaped, IsEscaped, hrun]

theorem isEscaped_cons_cons (cs : List Char) : IsEscaped ('\\' :: '\\' :: cs) ↔ IsEscaped cs := by
  by_cases h : ∀ c ∈ cs, c = '\\'
  · have hrun {ds : List Char} (hds : ∀ d ∈ ds, d = '\\') : ds.rtakeWhile (· = '\\') = ds :=
      List.rtakeWhile_eq_self_iff.mpr fun d hd => by simpa using hds d hd
    rw [IsEscaped, IsEscaped, hrun h, hrun (by simpa using h), List.length_cons, List.length_cons,
      Nat.odd_add_one, Nat.not_odd_iff_even, Nat.even_add_one, Nat.not_even_iff_odd]
  · push Not at h
    obtain ⟨c, hc, hne⟩ := h
    obtain ⟨before, behind, rfl⟩ := List.append_of_mem hc
    rw [isEscaped_append_cons hne before behind]
    exact isEscaped_append_cons hne ('\\' :: '\\' :: before) behind

theorem IsHexDigit.ne {c : Char} {n : Nat} (h : IsHexDigit c n) : c ≠ '"' ∧ c ≠ '\\' := by
  have hdigit := h.hexDigit?_eq
  constructor <;> rintro rfl <;> simp [Literal.hexDigit?] at hdigit

theorem IsCodeUnit.ne {digits : List Char} {unit : Nat} (h : IsCodeUnit digits unit) :
    ∀ d ∈ digits, d ≠ '"' ∧ d ≠ '\\' := by
  obtain ⟨a, b, c, d, i, j, k, l, rfl, ⟨hi, hj, hk, hl⟩, -⟩ := h
  simp [hi.ne, hj.ne, hk.ne, hl.ne]

theorem IsCodeUnit.exists_eq_concat {digits : List Char} {unit : Nat} (h : IsCodeUnit digits unit) :
    ∃ ds d, digits = ds ++ [d] ∧ d ≠ '\\' := by
  obtain ⟨a, b, c, d, i, j, k, l, rfl, ⟨-, -, -, hl⟩, -⟩ := h
  exact ⟨[a, b, c], d, rfl, hl.ne.2⟩

theorem Denotes.isEscaped_append {cs : List Char} {c : Char} (h : Denotes cs c) (ds : List Char) :
    IsEscaped (cs ++ ds) ↔ IsEscaped ds := by
  cases h with
  | itself hquote hslash => exact isEscaped_append_cons hslash [] ds
  | @letter c d h =>
    -- A backslash that is escaped itself escapes nothing.
    by_cases hslash : c = '\\'
    · rw [hslash]
      exact isEscaped_cons_cons ds
    · exact isEscaped_append_cons hslash ['\\'] ds
  | unit h =>
    obtain ⟨digits, d, rfl, hd⟩ := h.exists_eq_concat
    simpa using isEscaped_append_cons hd ('\\' :: 'u' :: digits) ds
  | @surrogates highDigits lowDigits high low c h h' hhigh hlow hc =>
    obtain ⟨digits, d, rfl, hd⟩ := h'.exists_eq_concat
    simpa using isEscaped_append_cons hd ('\\' :: 'u' :: (highDigits ++ '\\' :: 'u' :: digits)) ds

theorem Denotes.eq_of_quote {before behind : List Char} {c : Char}
    (h : Denotes (before ++ '"' :: behind) c) : before = ['\\'] := by
  -- The digits of a code unit have no quote among them.
  have hnot {digits : List Char} {unit : Nat} (hunit : IsCodeUnit digits unit) : '"' ∉ digits :=
    fun hmem => (hunit.ne _ hmem).1 rfl
  generalize hcs : before ++ '"' :: behind = cs at h
  have hmem : '"' ∈ cs := by simp [← hcs]
  cases h with
  | itself hquote hslash => exact absurd (List.mem_singleton.mp hmem).symm hquote
  | @letter c d h =>
    rcases before with _ | ⟨b, _ | ⟨b', before⟩⟩
    · simp at hcs
    · rw [(List.cons.inj hcs).1]
    · simp at hcs
  | unit h => simp [hnot h] at hmem
  | surrogates h h' hhigh hlow hc => simp [hnot h, hnot h'] at hmem

theorem isEscaped_of_forall₂ {spellings : List (List Char)} {text : List Char}
    (h : List.Forall₂ Denotes spellings text) : ¬IsEscaped spellings.flatten ∧
      ∀ before behind, spellings.flatten = before ++ '"' :: behind → IsEscaped before := by
  induction h with
  | nil => exact ⟨by simp [IsEscaped], by simp⟩
  | @cons cs c spellings text hc hall ih =>
    rw [List.flatten_cons, hc.isEscaped_append]
    refine ⟨ih.1, fun before behind hsplit => ?_⟩
    obtain ⟨more, rfl, htail⟩ | ⟨inner, rfl, htail⟩ := List.append_eq_append_iff.mp hsplit
    · exact (hc.isEscaped_append more).mpr (ih.2 more behind htail)
    · cases inner with
      | nil =>
        simpa using (hc.isEscaped_append []).mpr (ih.2 [] behind htail.symm)
      | cons d inner =>
        obtain ⟨rfl, -⟩ := List.cons.inj htail
        rw [hc.eq_of_quote]
        exact ⟨0, rfl⟩

/-! ## Covered characters -/

/-- The characters that are symbols by themselves. -/
def marks : List Char := ['\x7b', '\x7d', '[', ']', ':', ',']

/-- Whether a symbol covers some characters in front of the rest of a text. -/
structure Symbol.Covers (s : Symbol) (cs rest : List Char) : Prop where
  ne_nil : cs ≠ []
  string {text : String} : s = .string text → IsQuoted cs
  lexeme : (∀ text, s ≠ .string text) → cs = s.lexeme.toList
  number {literal : String} : s = .number literal → IsLongest IsNumberLiteral cs rest
  /-- No letter, digit or underscore is behind a word. There is a blank, or another token starts, and
  so there is no letter beyond ASCII either. -/
  word : s.kind ∈ [.trueWord, .falseWord, .nullWord] → ∀ d ∈ rest.head?,
    isWordChar d = false ∧ (isBlank d ∨ d ∈ marks ∨ d = '"' ∨ d = '-' ∨ d = '+')

theorem Symbol.Covers.ne_eof {s : Symbol} {cs rest : List Char} (h : s.Covers cs rest) : s ≠ .eof := by
  rintro rfl
  exact h.ne_nil (h.lexeme (by simp))

theorem mem_marks_of_ofChar? {d : Char} {s : Symbol} (h : Symbol.ofChar? d = some s) :
    d ∈ marks ∧ s.lexeme.toList = [d] ∧
      s.kind ∉ [.string, .number, .trueWord, .falseWord, .nullWord] := by
  simp only [Symbol.ofChar?, beq_iff_eq] at h
  split_ifs at h with h₁ h₂ h₃ h₄ h₅ h₆
  all_goals
    obtain rfl := Option.some.inj h
    subst d
    exact ⟨by decide, rfl, by decide⟩

theorem isQuoted_of_spellsText {body text : List Char} (h : SpellsText body text) :
    IsQuoted ('"' :: (body ++ ['"'])) := by
  obtain ⟨spellings, rfl, hall⟩ := spellsText_iff.mp h
  exact ⟨_, rfl, isEscaped_of_forall₂ hall⟩

theorem mem_of_spelledAs {d : Char} {ds : List Char} {s : Symbol} (h : SpelledAs (d :: ds) s)
    (hd : isWordChar d = false) : d ∈ marks ∨ d = '"' ∨ d = '-' ∨ d = '+' := by
  generalize hcs : d :: ds = cs at h
  cases h with
  | mark h =>
    obtain ⟨rfl, -⟩ := List.cons.inj hcs
    exact .inl (mem_marks_of_ofChar? h).1
  | string h => exact .inr (.inl (List.cons.inj hcs).1)
  | number h =>
    -- Words go on with digits, so a number starts with a sign here.
    obtain ⟨e, es, rfl, hdigit | hsign⟩ := h.exists_eq_cons <;> obtain ⟨rfl, -⟩ := List.cons.inj hcs
    · simp [isWordChar, Char.isAlphanum, hdigit] at hd
    · exact .inr (.inr hsign)
  | word h =>
    subst hcs
    simp [(isWordChar_of_ofWord? h).2 d] at hd

theorem isLongest_number {literal rest : List Char} (h : IsNumberLiteral literal)
    (hrest : Stops extendsNumber rest) : IsLongest IsNumberLiteral literal rest := by
  refine isLongest_of_forall h fun more hmore hprefix => ?_
  have hshort := number?_append (hrest.prefix_mono hprefix) h
  have hlong := number?_append (stops_nil (p := extendsNumber)) hmore
  rw [List.append_nil, hshort] at hlong
  simpa using Option.some.inj hlong

theorem covers_of_spelledAs {s : Symbol} {cs rest : List Char} (h : SpelledAs cs s)
    (hends : s.EndsBefore rest) (hrest : Continues Symbol rest) : s.Covers cs rest := by
  have hne := h.isTrimmed.1
  cases h with
  | @mark d s h =>
    obtain ⟨-, hlexeme, hkind⟩ := mem_marks_of_ofChar? h
    refine ⟨hne, ?_, fun _ => hlexeme.symm, ?_, ?_⟩
    · rintro text rfl
      simp [Symbol.kind] at hkind
    · rintro literal rfl
      simp [Symbol.kind] at hkind
    · intro hword
      exact absurd (List.mem_cons_of_mem _ (List.mem_cons_of_mem _ hword)) hkind
  | string h =>
    exact ⟨hne, fun _ => isQuoted_of_spellsText h, fun hs => absurd rfl (hs _), by simp,
      by simp [Symbol.kind]⟩
  | number h =>
    exact ⟨hne, by simp, by simp [Symbol.lexeme], fun _ => isLongest_number h hends,
      by simp [Symbol.kind]⟩
  | word h =>
    have hstops := (endsBefore_of_ofWord? h rest).mp hends
    refine ⟨hne, ?_, fun _ => ?_, ?_, fun _ d hd => ⟨hstops d hd, ?_⟩⟩
    · rintro text rfl
      obtain ⟨-, hs⟩ | ⟨-, hs⟩ | ⟨-, hs⟩ := exists_of_ofWord? h <;> simp at hs
    · obtain ⟨rfl, rfl⟩ | ⟨rfl, rfl⟩ | ⟨rfl, rfl⟩ := exists_of_ofWord? h <;> rfl
    · rintro literal rfl
      obtain ⟨-, hs⟩ | ⟨-, hs⟩ | ⟨-, hs⟩ := exists_of_ofWord? h <;> simp at hs
    · -- Behind a word are blanks, or a symbol that no word goes on with.
      obtain hblank | ⟨ds, s', hspells⟩ := hrest d hd
      · exact .inl hblank
      · exact .inr (mem_of_spelledAs hspells (hstops d hd))

/-- The tokens of a JSON text tile it, at ever higher positions up to the end of the text. Behind them
every reading gives the end. -/
theorem tiles_of_tokenize {source : String} {tokens : List (Token Symbol)}
    (h : tokenize source = .ok tokens) :
    Tiles Symbol.Covers 0 source.toList tokens ∧ (tokens.map Token.position).Pairwise (· < ·) ∧
      (∃ ts, tokens = ts ++ [⟨.eof, byteLength source.toList⟩] ∧ ∀ t ∈ ts, t.symbol ≠ .eof) ∧
      ∀ k, nextTokens (tokens.length + k) (Cursor.start source) =
        tokens.map .ok ++ List.replicate k (.ok ⟨.eof, byteLength source.toList⟩) := by
  have htiles : Tiles Symbol.Covers 0 source.toList tokens :=
    tiles_of_spells (fun _ _ _ => covers_of_spelledAs) h
  refine ⟨htiles, htiles.pairwise_position fun _ _ _ hcovers => hcovers.ne_nil, ?_,
    nextTokens_of_tokenize h⟩
  obtain ⟨ts, rfl, hts⟩ := htiles.exists_eq_concat
  refine ⟨ts, by rw [Nat.zero_add]; rfl, fun t ht => ?_⟩
  obtain ⟨covered, rest, hcovers⟩ := hts t ht
  exact hcovers.ne_eof

/-- A string with an escaped backslash and an escaped quote, a number and a word. -/
theorem tiles_of_escaped_quote :
    Tiles Symbol.Covers 0 " [\"\\\\\\\"é\", -1.5e3,true]\n".toList
      [⟨.leftBracket, 1⟩, ⟨.string "\\\"é", 2⟩, ⟨.comma, 10⟩, ⟨.number "-1.5e3", 12⟩, ⟨.comma, 18⟩,
        ⟨.boolean true, 19⟩, ⟨.rightBracket, 23⟩, ⟨.eof, 25⟩] :=
  (tiles_of_tokenize rfl).1

end Dialects.Json
