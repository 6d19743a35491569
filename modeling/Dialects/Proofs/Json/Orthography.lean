import Dialects.Json.Scan
import Dialects.Proofs.Json.Literal
import Dialects.Proofs.Json.Number
import Dialects.Proofs.Orthography

/-!
# How JSON is spelled

Punctuation and strings end where they end. A number ends in front of a character that it could not
go on with, and a word in front of one that no word goes on with.
-/

namespace Dialects.Json

open Dialects.Text

/-! ## Spelled symbols -/

inductive SpelledAs : List Char → Symbol → Prop
  | mark {d : Char} {s : Symbol} (h : Symbol.ofChar? d = some s) : SpelledAs [d] s
  | string {body text : List Char} (h : SpellsText body text) :
    SpelledAs ('"' :: (body ++ ['"'])) (.string (String.ofList text))
  | number {literal : List Char} (h : IsNumberLiteral literal) :
    SpelledAs literal (.number (String.ofList literal))
  | word {cs : List Char} {s : Symbol} (h : Symbol.ofWord? (String.ofList cs) = some s) :
    SpelledAs cs s

/-- Whether a symbol ends in front of a text. -/
def Symbol.EndsBefore (s : Symbol) (rest : List Char) : Prop :=
  match s with
  | number _ => Stops extendsNumber rest
  | boolean _ | null => Stops isWordChar rest
  | _ => True

instance : Orthography Symbol where
  Spells := SpelledAs
  EndsBefore := Symbol.EndsBefore

theorem ofChar?_eq_some {d : Char} {s : Symbol} (h : Symbol.ofChar? d = some s) :
    isBlank d = false ∧ s ≠ .eof ∧ ∀ rest, s.EndsBefore rest := by
  simp only [Symbol.ofChar?, beq_iff_eq] at h
  split_ifs at h with h₁ h₂ h₃ h₄ h₅ h₆
  all_goals
    obtain rfl := Option.some.inj h
    subst d
    exact ⟨rfl, by simp, fun _ => trivial⟩

theorem exists_of_ofWord? {cs : List Char} {s : Symbol}
    (h : Symbol.ofWord? (String.ofList cs) = some s) :
    cs = ['t', 'r', 'u', 'e'] ∧ s = .boolean true ∨
      cs = ['f', 'a', 'l', 's', 'e'] ∧ s = .boolean false ∨ cs = ['n', 'u', 'l', 'l'] ∧ s = .null := by
  have hcs (word : String) (hw : String.ofList cs = word) : cs = word.toList := by
    rw [← hw, String.toList_ofList]
  simp only [Symbol.ofWord?, beq_iff_eq] at h
  split_ifs at h with htrue hfalse hnull
  · exact .inl ⟨hcs _ htrue, (Option.some.inj h).symm⟩
  · exact .inr (.inl ⟨hcs _ hfalse, (Option.some.inj h).symm⟩)
  · exact .inr (.inr ⟨hcs _ hnull, (Option.some.inj h).symm⟩)

theorem isWordChar_of_ofWord? {cs : List Char} {s : Symbol}
    (h : Symbol.ofWord? (String.ofList cs) = some s) : cs ≠ [] ∧ ∀ c ∈ cs, isWordChar c := by
  obtain ⟨rfl, -⟩ | ⟨rfl, -⟩ | ⟨rfl, -⟩ := exists_of_ofWord? h
  all_goals exact ⟨by simp, List.all_eq_true.mp rfl⟩

theorem isAlpha_of_ofWord? {d : Char} {cs : List Char} {s : Symbol}
    (h : Symbol.ofWord? (String.ofList (d :: cs)) = some s) : d.isAlpha ∧ d ≠ 'e' ∧ d ≠ 'E' := by
  obtain ⟨hcs, -⟩ | ⟨hcs, -⟩ | ⟨hcs, -⟩ := exists_of_ofWord? h <;>
    obtain rfl := (List.cons.inj hcs).1 <;> decide

theorem endsBefore_of_ofWord? {cs : List Char} {s : Symbol}
    (h : Symbol.ofWord? (String.ofList cs) = some s) (rest : List Char) :
    s.EndsBefore rest ↔ Stops isWordChar rest := by
  obtain ⟨-, rfl⟩ | ⟨-, rfl⟩ | ⟨-, rfl⟩ := exists_of_ofWord? h <;> exact Iff.rfl

/-! ## What is spelled is read -/

theorem next_of_stops {offset : Nat} {d : Char} {rest : List Char} (h : isBlank d = false)
    (hd : Symbol.ofChar? d = none) : next ⟨offset, d :: rest⟩ =
      if d == '"' then nextString ⟨offset, d :: rest⟩ rest
      else if d.isDigit || d == '-' || d == '+' then nextNumber ⟨offset, d :: rest⟩
      else if d.isAlpha then nextWord ⟨offset, d :: rest⟩ d
      else (.error ⟨.unrecognisedCharacter d, offset⟩, ⟨offset, d :: rest⟩) := by
  have hskip : (⟨offset, d :: rest⟩ : Cursor).skipBlanks = ⟨offset, d :: rest⟩ :=
    Cursor.skipBlanks_of_stops (by simpa using h)
  simp only [next, hskip, hd]

theorem next_mark {d : Char} {s : Symbol} (h : Symbol.ofChar? d = some s) (offset : Nat)
    (rest : List Char) :
    next ⟨offset, d :: rest⟩ = (.ok ⟨s, offset⟩, ⟨offset + byteLength [d], rest⟩) := by
  have hskip : (⟨offset, d :: rest⟩ : Cursor).skipBlanks = ⟨offset, d :: rest⟩ :=
    Cursor.skipBlanks_of_stops (by simpa using (ofChar?_eq_some h).1)
  have hadvance := Cursor.advance_append offset [d] rest
  rw [List.singleton_append, List.length_singleton] at hadvance
  simp only [next, hskip, h, hadvance]

theorem next_quote (offset : Nat) (cs : List Char) :
    next ⟨offset, '"' :: cs⟩ = nextString ⟨offset, '"' :: cs⟩ cs := by
  rw [next_of_stops rfl rfl]
  rfl

theorem next_string {body text : List Char} (h : SpellsText body text) (offset : Nat)
    (rest : List Char) : next ⟨offset, '"' :: (body ++ ['"']) ++ rest⟩ =
      (.ok ⟨.string (String.ofList text), offset⟩,
        ⟨offset + byteLength ('"' :: (body ++ ['"'])), rest⟩) := by
  have hread := string_eq_ok_iff.mpr ⟨body, rest, rfl, h, rfl⟩
  have hadvance := Cursor.advance_append offset ('"' :: (body ++ ['"'])) rest
  have hlength : ('"' :: (body ++ ['"'])).length = body.length + 2 := by simp
  rw [hlength] at hadvance
  simp only [List.cons_append, List.append_assoc, List.nil_append] at hadvance ⊢
  simp only [next_quote, nextString, hread, hadvance]

theorem ofChar?_of_isDigit {d : Char} (h : d.isDigit) : Symbol.ofChar? d = none := by
  simp only [Symbol.ofChar?, beq_iff_eq]
  split_ifs <;> simp_all [Char.isDigit]

theorem IsNumberLiteral.exists_eq_cons {literal : List Char} (h : IsNumberLiteral literal) :
    ∃ d cs, literal = d :: cs ∧ (d.isDigit ∨ d = '-' ∨ d = '+') := by
  obtain ⟨sign, whole, part, exponent, hsign, hw, -, -, rfl⟩ := h
  obtain rfl | rfl | rfl := hsign
  · obtain ⟨d, ds, rfl⟩ := List.exists_cons_of_ne_nil hw.1
    exact ⟨d, _, rfl, .inl (hw.2 d List.mem_cons_self)⟩
  · exact ⟨'-', _, rfl, .inr (.inl rfl)⟩
  · exact ⟨'+', _, rfl, .inr (.inr rfl)⟩

theorem next_of_startsNumber {d : Char} (h : d.isDigit ∨ d = '-' ∨ d = '+') (offset : Nat)
    (cs : List Char) : next ⟨offset, d :: cs⟩ = nextNumber ⟨offset, d :: cs⟩ := by
  obtain h | rfl | rfl := h
  · have hquote : d ≠ '"' := by
      rintro rfl
      simp [Char.isDigit] at h
    rw [next_of_stops (isBlank_of_isDigit h) (ofChar?_of_isDigit h)]
    simp [hquote, h]
  · rw [next_of_stops rfl rfl]
    rfl
  · rw [next_of_stops rfl rfl]
    rfl

theorem next_number {literal rest : List Char} (h : IsNumberLiteral literal)
    (hrest : Stops extendsNumber rest) (offset : Nat) : next ⟨offset, literal ++ rest⟩ =
      (.ok ⟨.number (String.ofList literal), offset⟩, ⟨offset + byteLength literal, rest⟩) := by
  have hnumber := number?_append hrest h
  have hadvance := Cursor.advance_append offset literal rest
  obtain ⟨d, cs, rfl, hd⟩ := h.exists_eq_cons
  rw [List.cons_append] at hnumber hadvance ⊢
  simp only [next_of_startsNumber hd, nextNumber, hnumber, hadvance]

theorem next_word {cs rest : List Char} {s : Symbol}
    (h : Symbol.ofWord? (String.ofList cs) = some s) (hrest : Stops isWordChar rest) (offset : Nat) :
    next ⟨offset, cs ++ rest⟩ = (.ok ⟨s, offset⟩, ⟨offset + byteLength cs, rest⟩) := by
  have htake := takeWhile_append_of_stops (isWordChar_of_ofWord? h).2 hrest
  have hadvance := Cursor.advance_append offset cs rest
  have hplace (d : Char) : nextWord ⟨offset, cs ++ rest⟩ d =
      (.ok ⟨s, offset⟩, ⟨offset + byteLength cs, rest⟩) := by
    simp only [nextWord, htake, h, hadvance]
  obtain ⟨rfl, rfl⟩ | ⟨rfl, rfl⟩ | ⟨rfl, rfl⟩ := exists_of_ofWord? h
  all_goals
    rw [← hplace, List.cons_append, next_of_stops rfl rfl]
    rfl

theorem next_spelledAs {cs rest : List Char} {s : Symbol} (h : SpelledAs cs s)
    (hrest : s.EndsBefore rest) (offset : Nat) :
    next ⟨offset, cs ++ rest⟩ = (.ok ⟨s, offset⟩, ⟨offset + byteLength cs, rest⟩) := by
  cases h with
  | mark h => exact next_mark h offset rest
  | string h => exact next_string h offset rest
  | number h => exact next_number h hrest offset
  | word h => exact next_word h ((endsBefore_of_ofWord? h rest).mp hrest) offset

/-! ## What is read is spelled -/

theorem stops_extendsNumber {offset : Nat} {rest : List Char} {t : Token Symbol} {c : Cursor}
    (hdigit : Stops Char.isDigit rest) (h : next ⟨offset, rest⟩ = (.ok t, c)) :
    Stops extendsNumber rest := by
  cases rest with
  | nil => simp
  | cons d rest =>
    rw [stops_cons] at hdigit
    -- No token starts with a point, or with the mark of an exponent.
    have hpoint : d ≠ '.' := by
      rintro rfl
      rw [next_of_stops rfl rfl] at h
      simp [Char.isDigit, Char.isAlpha, Char.isUpper, Char.isLower] at h
    have hmark (hd : d = 'e' ∨ d = 'E') : False := by
      have hplace : next ⟨offset, d :: rest⟩ = nextWord ⟨offset, d :: rest⟩ d := by
        obtain rfl | rfl := hd <;> rw [next_of_stops rfl rfl] <;> rfl
      have htake : (d :: rest).takeWhile isWordChar = d :: rest.takeWhile isWordChar := by
        obtain rfl | rfl := hd <;> rfl
      rw [hplace] at h
      simp only [nextWord, htake] at h
      split at h
      · rename_i hword
        obtain ⟨-, he, hE⟩ := isAlpha_of_ofWord? hword
        exact hd.elim he hE
      · simp at h
    simp only [stops_cons, extendsNumber, hdigit, Bool.false_or, Bool.or_eq_false_iff,
      beq_eq_false_iff_ne]
    exact ⟨⟨hpoint, fun he => hmark (.inl he)⟩, fun hE => hmark (.inr hE)⟩

theorem next_eq_ok {c c' : Cursor} {t : Token Symbol} (h : next c = (.ok t, c')) :
    t.position = c.skipBlanks.offset ∧
      (t.symbol = .eof ∧ c.skipBlanks.rest = [] ∨
        ∃ spelling rest, c.skipBlanks.rest = spelling ++ rest ∧
          c' = ⟨c.skipBlanks.offset + byteLength spelling, rest⟩ ∧ SpelledAs spelling t.symbol ∧
          ∀ u c'', next c' = (.ok u, c'') → t.symbol.EndsBefore rest) := by
  have hadvance {spelling rest : List Char} (hrest : c.skipBlanks.rest = spelling ++ rest) :
      c.skipBlanks.advance spelling.length = ⟨c.skipBlanks.offset + byteLength spelling, rest⟩ := by
    have := Cursor.advance_append c.skipBlanks.offset spelling rest
    rwa [← hrest] at this
  simp only [next] at h
  split at h
  · rename_i hrest
    obtain ⟨rfl, rfl⟩ := by simpa using h
    exact ⟨rfl, .inl ⟨rfl, hrest⟩⟩
  · rename_i d rest hrest
    split at h
    · rename_i symbol hsymbol
      obtain ⟨rfl, rfl⟩ := by simpa using h
      have hplace := hadvance (show c.skipBlanks.rest = [d] ++ rest from hrest)
      exact ⟨rfl, .inr ⟨[d], rest, hrest, hplace, .mark hsymbol,
        fun _ _ _ => (ofChar?_eq_some hsymbol).2.2 rest⟩⟩
    -- A string, a number or a word, each with the end that its reading finds.
    split_ifs at h with hquote hstart hletter
    · simp only [nextString] at h
      split at h
      · rename_i text length hstring
        obtain ⟨rfl, rfl⟩ := by simpa using h
        obtain ⟨body, rest, rfl, hbody, rfl⟩ := string_eq_ok_iff.mp hstring
        have hsplit : c.skipBlanks.rest = '"' :: (body ++ ['"']) ++ rest := by
          rw [hrest, beq_iff_eq.mp hquote]
          simp
        have hplace := hadvance hsplit
        rw [List.length_cons, List.length_append, List.length_singleton] at hplace
        exact ⟨rfl, .inr ⟨_, rest, hsplit, hplace, .string hbody, fun _ _ _ => trivial⟩⟩
      · simp at h
    · simp only [nextNumber] at h
      split at h
      · rename_i literal hnumber
        obtain ⟨rfl, rfl⟩ := by simpa using h
        obtain ⟨hliteral, rest, hsplit, hdigit⟩ := exists_of_number? hnumber
        rw [hadvance hsplit]
        exact ⟨rfl, .inr ⟨literal, rest, hsplit, rfl, .number hliteral,
          fun _ _ hnext => stops_extendsNumber hdigit hnext⟩⟩
      · simp at h
    · simp only [nextWord] at h
      split at h
      · rename_i symbol hword
        obtain ⟨rfl, rfl⟩ := by simpa using h
        have hsplit := (List.takeWhile_append_dropWhile (p := isWordChar)
          (l := c.skipBlanks.rest)).symm
        exact ⟨rfl, .inr ⟨_, _, hsplit, hadvance hsplit, .word hword,
          fun _ _ _ => (endsBefore_of_ofWord? hword _).mpr (stops_dropWhile _ _)⟩⟩
      · simp at h
    · simp at h

theorem SpelledAs.ne_eof {cs : List Char} {s : Symbol} (h : SpelledAs cs s) : s ≠ .eof := by
  cases h with
  | mark h => exact (ofChar?_eq_some h).2.1
  | string h => simp
  | number h => simp
  | word h => obtain ⟨-, rfl⟩ | ⟨-, rfl⟩ | ⟨-, rfl⟩ := exists_of_ofWord? h <;> simp

theorem isEof_eq_false {t : Token Symbol} (h : t.symbol ≠ .eof) : t.isEof = false := by
  unfold Token.isEof Token.kind
  cases ht : t.symbol with
  | boolean value => cases value <;> rfl
  | eof => exact absurd ht h
  | _ => rfl

theorem SpelledAs.isTrimmed {cs : List Char} {s : Symbol} (h : SpelledAs cs s) :
    cs ≠ [] ∧ IsTrimmed cs := by
  cases h with
  | mark h => exact ⟨by simp, isTrimmed_of_forall (by simpa using (ofChar?_eq_some h).1)⟩
  | string h =>
    refine ⟨by simp, by simp [isBlank], ?_⟩
    rw [List.reverse_cons, List.reverse_append, List.reverse_singleton]
    simp [isBlank]
  | number h =>
    exact ⟨h.ne_nil, isTrimmed_of_forall fun c hc => isBlank_of_isNumberChar (h.isNumberChar c hc)⟩
  | word h =>
    obtain ⟨rfl, -⟩ | ⟨rfl, -⟩ | ⟨rfl, -⟩ := exists_of_ofWord? h
    all_goals exact ⟨by simp, isTrimmed_of_forall (by simp [isBlank])⟩

theorem isEof_iff {t : Token Symbol} : t.isEof ↔ t.symbol = .eof := by
  constructor
  · intro h
    by_contra hs
    simp [isEof_eq_false hs] at h
  · intro h
    unfold Token.isEof Token.kind
    rw [h]
    rfl

instance : LawfulLexicon Symbol where
  next_skipBlanks c := by simp [Lexicon.next, next]
  next_end offset := rfl
  length_lt {c c' t} h heof := by
    obtain ⟨-, ⟨hs, -⟩ | ⟨spelling, rest, hrest, rfl, hspelled, -⟩⟩ := next_eq_ok h
    · simp [isEof_iff.mpr hs] at heof
    · have hpos := List.length_pos_of_ne_nil hspelled.isTrimmed.1
      have hle := c.length_rest_skipBlanks_le
      rw [hrest, List.length_append] at hle
      show rest.length < c.rest.length
      omega

theorem isBlank_of_isWordChar {c : Char} (h : isWordChar c) : isBlank c = false := by
  simp only [isWordChar, Char.isAlphanum, Bool.or_eq_true, beq_iff_eq] at h
  obtain (h | h) | rfl := h
  · exact isBlank_of_isAlpha h
  · exact isBlank_of_isDigit h
  · rfl

theorem Symbol.EndsBefore.of_stops {s : Symbol} {cs ds : List Char} (h : s.EndsBefore cs)
    (hstops : ∀ p : Char → Bool, (∀ b, isBlank b → p b = false) → Stops p cs → Stops p ds) :
    s.EndsBefore ds := by
  have hnot {p : Char → Bool} (hp : ∀ b, p b → isBlank b = false) (b : Char) (hb : isBlank b) :
      p b = false := by
    by_contra hne
    simp [hp b (by simpa using hne)] at hb
  cases s with
  | number literal =>
    exact hstops _ (hnot fun b hb => isBlank_of_isNumberChar (by simp [isNumberChar, hb])) h
  | boolean value => exact hstops _ (hnot fun _ => isBlank_of_isWordChar) h
  | null => exact hstops _ (hnot fun _ => isBlank_of_isWordChar) h
  | _ => trivial

instance : LawfulOrthography Symbol where
  isTrimmed h := h.isTrimmed
  isEof_eq_false position h := isEof_eq_false h.ne_eof
  endsBefore_of_isPrefix h hcs := h.of_stops fun _ _ hs => hs.prefix_mono hcs
  endsBefore_of_blanksAdded h hadded := h.of_stops fun _ hp hs => hadded.stops hp hs
  next_spelled offset h hrest := ⟨_, next_spelledAs h hrest offset, rfl⟩
  rest_eq_nil h heof := by
    obtain ⟨-, ⟨-, hrest⟩ | ⟨spelling, rest, -, -, hspelled, -⟩⟩ := next_eq_ok h
    · exact hrest
    · exact absurd (isEof_iff.mp heof) hspelled.ne_eof
  exists_spelled {c c' c'' t u} h heof hnext := by
    obtain ⟨hposition, ⟨hs, -⟩ | ⟨spelling, rest, hrest, rfl, hspelled, hends⟩⟩ := next_eq_ok h
    · simp [isEof_iff.mpr hs] at heof
    · exact ⟨hposition, spelling, [], rest, hrest, by simp, by simp, hspelled, hends u c'' hnext⟩

theorem isSome_read?_of_next {c c' : Cursor} {t : Token Symbol} {literal : String}
    (h : next c = (.ok t, c')) (ht : t.symbol = .number literal) :
    (Double.read? literal.toList).isSome := by
  obtain ⟨-, ⟨hs, -⟩ | ⟨spelling, rest, -, -, hspelled, -⟩⟩ := next_eq_ok h
  · simp [hs] at ht
  · generalize t.symbol = s at hspelled ht
    subst ht
    cases hspelled with
    | mark h => exact absurd h (by unfold Symbol.ofChar?; split_ifs <;> simp)
    | number h => simpa using h.isSome_read?
    | word h => obtain ⟨-, h⟩ | ⟨-, h⟩ | ⟨-, h⟩ := exists_of_ofWord? h <;> simp at h

end Dialects.Json
