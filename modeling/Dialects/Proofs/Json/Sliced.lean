import Dialects.Proofs.Json.Tiling
import Dialects.Proofs.Sliced

/-!
# JSON read by byte offsets

JSON may be read with a byte offset in hand, which grows by the lengths of characters and of what is
found, and by the four bytes of a code unit. Such a reading cuts the text at characters only, failed or
not, and gives what reading with a cursor does.
-/

namespace Dialects.Json

open Dialects.Text

/-! ## Reading by offsets -/

/-- The failure of an escape by code units that starts at one offset and was read up to another. It shows
four characters more. -/
def invalidUnicodeEscapeAt? (text : List Char) (escape position : Nat) : Option Failure := do
  let stop := max position escape
  let shown ← slice? text escape stop
  let behind ← dropBytes? stop text
  some ⟨.invalidUnicodeEscape (String.ofList (shown ++ behind.take 4)), escape⟩

/-- Reads the four digits of a code unit, in an escape that starts at an offset. -/
def codeUnitAt? (text : List Char) (escape position : Nat) :
    Option (Except Failure Nat × Nat) := do
  let rest ← dropBytes? position text
  match (takeBytes? 4 rest).bind Literal.codeUnit? with
  | some unit => some (.ok unit, position + 4)
  | none => some (.error (← invalidUnicodeEscapeAt? text escape position), position)

/-- Reads the second escape of a surrogate pair that starts at an offset, its backslash included. -/
def lowSurrogateAt? (text : List Char) (escape position high : Nat) :
    Option (Except Failure Char × Nat) := do
  if ['\\', 'u'].isPrefixOf (← dropBytes? position text) then
    match ← codeUnitAt? text escape (position + 2) with
    | (.error f, stop) => some (.error f, stop)
    | (.ok low, stop) =>
      if Literal.isLowSurrogate low then some (.ok (Literal.ofSurrogates high low), stop)
      else some (.error (← invalidUnicodeEscapeAt? text escape stop), stop)
  else some (.error (← invalidUnicodeEscapeAt? text escape position), position)

/-- Reads an escape by code units, from behind its `u`. -/
def unicodeEscapeAt? (text : List Char) (escape position : Nat) :
    Option (Except Failure Char × Nat) := do
  match ← codeUnitAt? text escape position with
  | (.error f, stop) => some (.error f, stop)
  | (.ok unit, stop) =>
    if Literal.isHighSurrogate unit then lowSurrogateAt? text escape stop unit
    else if Literal.isLowSurrogate unit then
      some (.error (← invalidUnicodeEscapeAt? text escape stop), stop)
    else some (.ok (Char.ofNat unit), stop)

/-- Reads an escape that starts at an offset, from behind its backslash. -/
def escapeAt? (text : List Char) (escape position : Nat) : Option (Except Failure Char × Nat) := do
  match ← peek? text position with
  | none => some (.error ⟨.unterminatedString, escape⟩, position)
  | some c =>
    let stop := position + c.utf8Size
    if c == 'u' then unicodeEscapeAt? text escape stop
    else
      match Literal.simpleEscape? c with
      | some d => some (.ok d, stop)
      | none => some (.error ⟨.invalidEscape (String.ofList ['\\', c]), escape⟩, stop)

/-- Reads the body of a string whose opening quote is at an offset, at most so many characters of it.
The text read so far is held last character first. -/
def stringBodyAt? (text : List Char) (start : Nat) :
    Nat → Nat → List Char → Option (Except Failure (Token Symbol) × Nat)
  | 0, _, _ => none
  | n + 1, position, body => do
    match ← peek? text position with
    | none => some (.error ⟨.unterminatedString, start⟩, position)
    | some c =>
      let stop := position + c.utf8Size
      if c == '"' then some (.ok ⟨.string (String.ofList body.reverse), start⟩, stop)
      else if c == '\\' then
        match ← escapeAt? text position stop with
        | (.error f, stop) => some (.error f, stop)
        | (.ok d, stop) => stringBodyAt? text start n stop (d :: body)
      else stringBodyAt? text start n stop (c :: body)

/-- Reads a number that starts at an offset. -/
def numberAt? (text : List Char) (start : Nat) : Option (Except Failure (Token Symbol) × Nat) := do
  let rest ← dropBytes? start text
  match Literal.number? rest with
  | some literal =>
    some (.ok ⟨.number (String.ofList literal), start⟩, start + byteLength literal)
  | none =>
    let token := String.ofList (rest.takeWhile fun c => !endsNumber c)
    some (.error ⟨.malformedNumber token, start⟩, start)

/-- Reads a word that starts at an offset with the letter `c`. -/
def wordAt? (text : List Char) (start : Nat) (c : Char) :
    Option (Except Failure (Token Symbol) × Nat) := do
  let word := (← dropBytes? start text).takeWhile isWordChar
  match Symbol.ofWord? (String.ofList word) with
  | some symbol => some (.ok ⟨symbol, start⟩, start + byteLength word)
  | none => some (.error ⟨.unrecognisedCharacter c, start⟩, start)

/-- Reads the next token from an offset on. Gives the offset that is left too, and nothing if the text
would have to be cut inside a character or behind its end. -/
def nextAt? (text : List Char) (position : Nat) : Option (Except Failure (Token Symbol) × Nat) := do
  let start ← skipBlanks? text (text.length + 1) position
  match ← peek? text start with
  | none => some (.ok ⟨.eof, start⟩, start)
  | some c =>
    match Symbol.ofChar? c with
    | some symbol => some (.ok ⟨symbol, start⟩, start + byteLength symbol.lexeme.toList)
    | none =>
      if c == '"' then stringBodyAt? text start (text.length + 1) (start + 1) []
      else if c.isDigit || c == '-' || c == '+' then numberAt? text start
      else if c.isAlpha then wordAt? text start c
      else some (.error ⟨.unrecognisedCharacter c, start⟩, start)

/-! ## Code units -/

theorem utf8Size_of_hexDigit? {c : Char} {n : Nat} (h : Literal.hexDigit? c = some n) :
    c.utf8Size = 1 := by
  rw [Char.utf8Size_eq_one_iff, UInt32.le_iff_toNat_le]
  simp only [Literal.hexDigit?, Bool.and_eq_true, decide_eq_true_eq, Char.le_def,
    UInt32.le_iff_toNat_le] at h
  split_ifs at h with hdecimal hlower hupper
  · exact hdecimal.2.trans (by decide)
  · exact hlower.2.trans (by decide)
  · exact hupper.2.trans (by decide)

theorem SpellsUnit.byteLength_eq {digits : List Char} {unit : Nat} (h : SpellsUnit digits unit) :
    byteLength digits = 4 := by
  obtain ⟨hlength, hunit⟩ := h
  match digits, hlength with
  | [a, b, c, d], _ =>
    simp only [Literal.codeUnit?, Option.bind_eq_bind, Option.bind_eq_some_iff] at hunit
    obtain ⟨i, hi, j, hj, k, hk, l, hl, -⟩ := hunit
    simp [utf8Size_of_hexDigit? hi, utf8Size_of_hexDigit? hj, utf8Size_of_hexDigit? hk,
      utf8Size_of_hexDigit? hl]

theorem bind_takeBytes?_codeUnit? (cs : List Char) :
    (takeBytes? 4 cs).bind Literal.codeUnit? = Literal.codeUnit? cs := by
  cases hunit : Literal.codeUnit? cs with
  | some unit =>
    obtain ⟨digits, rest, rfl, hdigits⟩ := codeUnit?_eq_some_iff.mp hunit
    have htake := takeBytes?_byteLength digits rest
    rw [hdigits.byteLength_eq] at htake
    rw [htake, Option.bind_some, hdigits.2]
  | none =>
    cases htake : takeBytes? 4 cs with
    | none => rfl
    | some ds =>
      obtain ⟨rest, rfl⟩ := exists_append_of_takeBytes? htake
      rw [Option.bind_some]
      by_contra hne
      obtain ⟨unit, hsome⟩ := Option.ne_none_iff_exists'.mp hne
      obtain ⟨digits, more, rfl, hdigits⟩ := codeUnit?_eq_some_iff.mp hsome
      rw [List.append_assoc, hdigits.codeUnit?_append] at hunit
      simp at hunit

variable {c place : Cursor} {source : String}

/-- The failure of an escape by code units at a cursor, of which so many characters were read. -/
def invalidUnicodeEscape (place : Cursor) (k : Nat) : Failure :=
  ⟨.invalidUnicodeEscape (String.ofList (place.rest.take (k + 4))), place.offset⟩

theorem invalidUnicodeEscapeAt?_eq (h : place.StandsIn source) (k : Nat) :
    invalidUnicodeEscapeAt? source.toList place.offset (place.advance k).offset =
      some (invalidUnicodeEscape place k) := by
  have hmax : max (place.advance k).offset place.offset = (place.advance k).offset :=
    max_eq_left (Nat.le_add_right _ _)
  simp only [invalidUnicodeEscapeAt?, hmax, h.slice?_eq, (h.advance k).dropBytes?_eq,
    Cursor.rest_advance, invalidUnicodeEscape, List.take_add, Option.bind_eq_bind, Option.bind_some]

theorem codeUnitAt?_eq (h : place.StandsIn source) (k : Nat) :
    codeUnitAt? source.toList place.offset (place.advance k).offset =
      some (match Literal.codeUnit? (place.rest.drop k) with
        | some unit => (.ok unit, (place.advance (k + 4)).offset)
        | none => (.error (invalidUnicodeEscape place k), (place.advance k).offset)) := by
  simp only [codeUnitAt?, (h.advance k).dropBytes?_eq, Option.bind_eq_bind, Option.bind_some,
    bind_takeBytes?_codeUnit?, Cursor.rest_advance, invalidUnicodeEscapeAt?_eq h]
  cases hunit : Literal.codeUnit? (place.rest.drop k) with
  | none => rfl
  | some unit =>
    obtain ⟨digits, rest, hrest, hdigits⟩ := codeUnit?_eq_some_iff.mp hunit
    have hoffset := (place.advance k).offset_advance_of_append hrest
    rw [hdigits.1, hdigits.byteLength_eq, Cursor.advance_advance] at hoffset
    simp only [hoffset]

theorem lowSurrogateAt?_of_escape (h : place.StandsIn source) {k : Nat} {rest : List Char}
    (hrest : place.rest.drop k = '\\' :: 'u' :: rest) (high : Nat) :
    lowSurrogateAt? source.toList place.offset (place.advance k).offset high =
      some (match Literal.codeUnit? rest with
        | none => (.error (invalidUnicodeEscape place (k + 2)), (place.advance (k + 2)).offset)
        | some low =>
          (if Literal.isLowSurrogate low then .ok (Literal.ofSurrogates high low)
            else .error (invalidUnicodeEscape place (k + 2 + 4)),
          (place.advance (k + 2 + 4)).offset)) := by
  have hoffset : (place.advance (k + 2)).offset = (place.advance k).offset + 2 := by
    rw [← Cursor.advance_advance]
    exact @Cursor.offset_advance_of_append (place.advance k) ['\\', 'u'] rest hrest
  have hunit := codeUnitAt?_eq h (k + 2)
  rw [← List.drop_drop, hrest, List.drop_succ_cons, List.drop_succ_cons, List.drop_zero,
    hoffset] at hunit
  simp only [lowSurrogateAt?, (h.advance k).dropBytes?_eq, Cursor.rest_advance, hrest, hunit, hoffset,
    invalidUnicodeEscapeAt?_eq h, Option.bind_eq_bind, Option.bind_some]
  rw [if_pos (by simp)]
  cases Literal.codeUnit? rest with
  | none => rfl
  | some low =>
    simp only [invalidUnicodeEscapeAt?_eq h, Option.bind_some]
    split_ifs <;> rfl

theorem lowSurrogateAt?_of_other (h : place.StandsIn source) {k : Nat}
    (hother : ∀ rest, place.rest.drop k ≠ '\\' :: 'u' :: rest) (high : Nat) :
    lowSurrogateAt? source.toList place.offset (place.advance k).offset high =
      some (.error (invalidUnicodeEscape place k), (place.advance k).offset) := by
  have hprefix : ¬['\\', 'u'].isPrefixOf (place.rest.drop k) := by
    rw [List.isPrefixOf_iff_prefix]
    rintro ⟨rest, hrest⟩
    exact hother rest hrest.symm
  simp only [lowSurrogateAt?, (h.advance k).dropBytes?_eq, Cursor.rest_advance, if_neg hprefix,
    invalidUnicodeEscapeAt?_eq h, Option.bind_eq_bind, Option.bind_some]

theorem unicodeEscapeAt?_eq (h : place.StandsIn source) {rest : List Char}
    (hplace : place.rest = '\\' :: 'u' :: rest) :
    unicodeEscapeAt? source.toList place.offset (place.advance 2).offset =
      some (match Literal.unicodeEscape rest with
        | .ok (d, length) => (.ok d, (place.advance length).offset)
        | .error n => (.error (invalidUnicodeEscape place n), (place.advance n).offset)) := by
  have hdrop : place.rest.drop 6 = rest.drop 4 := by
    rw [hplace, List.drop_succ_cons, List.drop_succ_cons]
  have hunit := codeUnitAt?_eq h 2
  rw [hplace, List.drop_succ_cons, List.drop_succ_cons, List.drop_zero] at hunit
  simp only [unicodeEscapeAt?, hunit, Option.bind_eq_bind, Option.bind_some, Literal.unicodeEscape]
  cases Literal.codeUnit? rest with
  | none => rfl
  | some unit =>
    by_cases hhigh : Literal.isHighSurrogate unit
    · by_cases hescape : ∃ more, rest.drop 4 = '\\' :: 'u' :: more
      · obtain ⟨more, hmore⟩ := hescape
        simp only [hhigh, if_true, hmore, lowSurrogateAt?_of_escape h (hdrop.trans hmore)]
        cases Literal.codeUnit? more with
        | none => rfl
        | some low => cases hlow : Literal.isLowSurrogate low <;> simp [hlow]
      · have hother (more : List Char) : rest.drop 4 ≠ '\\' :: 'u' :: more :=
          fun hmore => hescape ⟨more, hmore⟩
        simp only [hhigh, if_true, lowSurrogateAt?_of_other h (hdrop ▸ hother)]
    · simp only [hhigh, Bool.false_eq_true, if_false, invalidUnicodeEscapeAt?_eq h, Option.bind_some]
      split_ifs <;> rfl

theorem escapeAt?_eq (h : place.StandsIn source) {cs : List Char} (hplace : place.rest = '\\' :: cs) :
    escapeAt? source.toList place.offset (place.advance 1).offset =
      some (match Literal.escape cs with
        | .ok (d, length) => (.ok d, (place.advance length).offset)
        | .error (cause, length) => (.error ⟨cause, place.offset⟩, (place.advance length).offset)) := by
  have hbehind : (place.advance 1).rest = cs := by rw [Cursor.rest_advance, hplace]; rfl
  simp only [escapeAt?, (h.advance 1).peek?_eq, hbehind, Option.bind_eq_bind, Option.bind_some]
  cases cs with
  | nil => rfl
  | cons c rest =>
    have hoffset := Cursor.offset_advance_of_cons hbehind
    rw [Cursor.advance_advance] at hoffset
    simp only [List.head?_cons, ← hoffset, beq_iff_eq]
    by_cases hunicode : c = 'u'
    · subst hunicode
      rw [if_pos rfl, unicodeEscapeAt?_eq h hplace, Literal.escape]
      cases Literal.unicodeEscape rest with
      | ok spelled => rfl
      | error n => simp only [invalidUnicodeEscape, hplace]
    · rw [if_neg hunicode, Literal.escape.eq_3 c rest (by simpa using hunicode)]
      cases Literal.simpleEscape? c <;> rfl

theorem stringBodyAt?_eq (h : place.StandsIn source) {m n taken : Nat} {body : List Char}
    (hm : (place.rest.drop taken).length < m) (hn : (place.rest.drop taken).length < n) :
    stringBodyAt? source.toList place.offset m (place.advance taken).offset body =
      some (match Literal.stringBody n taken body (place.rest.drop taken) with
        | .ok (text, length) =>
          (.ok ⟨.string (String.ofList text), place.offset⟩, (place.advance length).offset)
        | .error halt =>
          (.error ⟨halt.cause, (place.advance halt.place).offset⟩,
            (place.advance halt.stop).offset)) := by
  -- The two bounds on the characters do not matter, as both are larger than what is left.
  induction m generalizing n taken body with
  | zero => simp at hm
  | succ m ih =>
    obtain ⟨n, rfl⟩ := Nat.exists_eq_succ_of_ne_zero (Nat.ne_zero_of_lt hn)
    simp only [stringBodyAt?, (h.advance taken).peek?_eq, Cursor.rest_advance, Option.bind_eq_bind,
      Option.bind_some]
    cases hrest : place.rest.drop taken with
    | nil => simp [Literal.stringBody]
    | cons c cs =>
      have hoffset := (place.advance taken).offset_advance_of_cons hrest
      have hdrop (k : Nat) : place.rest.drop (taken + (k + 1)) = cs.drop k := by
        rw [← List.drop_drop, hrest, List.drop_succ_cons]
      rw [hrest, List.length_cons] at hm hn
      simp only [List.head?_cons, ← hoffset, Cursor.advance_advance, Literal.stringBody, beq_iff_eq]
      by_cases hquote : c = '"'
      · rw [if_pos hquote, if_pos hquote]
      · rw [if_neg hquote, if_neg hquote]
        by_cases hslash : c = '\\'
        · have hescape := escapeAt?_eq (h.advance taken) (hrest.trans (by rw [hslash]))
          simp only [Cursor.advance_advance] at hescape
          rw [if_pos hslash, if_pos hslash, hescape, Option.bind_some]
          cases hread : Literal.escape cs with
          | error stop => rfl
          | ok spelled =>
            obtain ⟨d, length⟩ := spelled
            obtain ⟨esc, rest, rfl, -, rfl⟩ := exists_of_escape hread
            have htail := @ih n (taken + (esc.length + 1)) (d :: body)
            rw [hdrop, List.drop_left] at htail
            rw [List.length_append] at hm hn
            simp only [Nat.add_sub_cancel, List.drop_left]
            exact htail (by omega) (by omega)
        · have htail := @ih n (taken + (0 + 1)) (c :: body)
          rw [hdrop, List.drop_zero, Nat.zero_add] at htail
          rw [if_neg hslash, if_neg hslash, htail (by omega) (by omega)]

theorem numberAt?_eq (h : place.StandsIn source) : numberAt? source.toList place.offset =
    some ((nextNumber place).1, (nextNumber place).2.offset) := by
  simp only [numberAt?, nextNumber, h.dropBytes?_eq, Option.bind_eq_bind, Option.bind_some]
  cases hnumber : Literal.number? place.rest with
  | none => rfl
  | some literal =>
    obtain ⟨-, rest, hrest, -⟩ := exists_of_number? hnumber
    rw [Cursor.offset_advance_of_append hrest]

theorem wordAt?_eq (h : place.StandsIn source) (c : Char) : wordAt? source.toList place.offset c =
    some ((nextWord place c).1, (nextWord place c).2.offset) := by
  have hsplit := List.takeWhile_append_dropWhile (p := isWordChar) (l := place.rest)
  simp only [wordAt?, nextWord, h.dropBytes?_eq, Option.bind_eq_bind, Option.bind_some,
    ← Cursor.offset_advance_of_append hsplit.symm]
  cases Symbol.ofWord? (String.ofList (place.rest.takeWhile isWordChar)) <;> rfl

theorem nextAt?_eq (h : c.StandsIn source) :
    nextAt? source.toList c.offset = some ((next c).1, (next c).2.offset) := by
  have hskip := h.skipBlanks?_eq (Nat.lt_succ_of_le h.length_le)
  have hpeek := h.skipBlanks.peek?_eq
  simp only [nextAt?, next, hskip, hpeek, Option.bind_eq_bind, Option.bind_some]
  cases hrest : c.skipBlanks.rest with
  | nil => rfl
  | cons d rest =>
    have hoffset := Cursor.offset_advance_of_cons hrest
    simp only [List.head?_cons]
    cases hmark : Symbol.ofChar? d with
    | some symbol =>
      obtain ⟨-, hlexeme, -⟩ := mem_marks_of_ofChar? hmark
      simp only [hlexeme, hoffset, byteLength_cons, byteLength_nil, Nat.add_zero]
    | none =>
      simp only
      split_ifs with hquote
      · obtain rfl : d = '"' := by simpa using hquote
        have hbehind : c.skipBlanks.rest.drop 1 = rest := by rw [hrest]; rfl
        have hlength := h.skipBlanks.length_le
        rw [hrest, List.length_cons] at hlength
        have hbody := @stringBodyAt?_eq c.skipBlanks source h.skipBlanks (source.toList.length + 1)
          (rest.length + 1) 1 []
        rw [hbehind, hoffset] at hbody
        refine (hbody (by omega) (by omega)).trans ?_
        rw [nextString, Literal.string]
        cases Literal.stringBody (rest.length + 1) 1 [] rest <;> rfl
      · exact numberAt?_eq h.skipBlanks
      · exact wordAt?_eq h.skipBlanks d
      · rfl

/-- No cursor stands inside a character. -/
example : nextAt? "é".toList 1 = none := by decide

end Dialects.Json
