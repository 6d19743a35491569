import Dialects.Proofs.Markup.Located
import Dialects.Proofs.Sliced

/-!
# Markup read by byte offsets

Markup may be read with a byte offset in hand, which grows by the lengths of what is found. Such a
reading cuts the text at characters only, and gives what reading with a cursor does.
-/

namespace Dialects.Markup

open Dialects.Text

/-! ## Reading by offsets -/

/-- The text up to the next bracket, without the blanks around it, and the offset of that bracket. -/
def rawAt? (text : List Char) (position : Nat) : Option (List Char × Nat) := do
  let rest ← dropBytes? position text
  let length := byteLength (rest.takeWhile (!isBracket ·))
  let raw ← takeBytes? length rest
  some (trim raw, position + length)

/-- Reads a tag whose opening bracket is at an offset. -/
def tagAt? (text : List Char) (start : Nat) : Option (Except Failure (Token Symbol) × Nat) := do
  let closing := (← peek? text (start + 1)) == some '/'
  let (name, stop) ← rawAt? text (if closing then start + 2 else start + 1)
  if (← peek? text stop) == some '>' then
    if name.isEmpty then some (.error ⟨.emptyTagName, start⟩, stop + 1)
    else
      let name := String.ofList name
      some (.ok ⟨if closing then .closeTag name else .openTag name, start⟩, stop + 1)
  else some (.error ⟨.unterminatedTag (String.ofList name), start⟩, stop)

/-- Reads the next token from an offset on. Gives the offset that is left too, and nothing if the text
would have to be cut inside a character or behind its end. -/
def nextAt? (text : List Char) (position : Nat) : Option (Except Failure (Token Symbol) × Nat) := do
  let start ← skipBlanks? text (text.length + 1) position
  match ← peek? text start with
  | none => some (.ok ⟨.eof, start⟩, start)
  | some c =>
    if c == '<' then tagAt? text start
    else if c == '>' then some (.error ⟨.unrecognisedCharacter c, start⟩, start)
    else
      let (raw, stop) ← rawAt? text start
      some (.ok ⟨Symbol.ofText raw, start⟩, stop)

/-! ## Reading with a cursor -/

variable {c place : Cursor} {source : String}

theorem rawAt?_eq (h : c.StandsIn source) : rawAt? source.toList c.offset =
    some (trim (c.rest.takeWhile (!isBracket ·)),
      (c.advance (c.rest.takeWhile (!isBracket ·)).length).offset) := by
  have hsplit := List.takeWhile_append_dropWhile (p := (!isBracket ·)) (l := c.rest)
  have htake := takeBytes?_byteLength (c.rest.takeWhile (!isBracket ·))
    (c.rest.dropWhile (!isBracket ·))
  rw [hsplit] at htake
  rw [Cursor.offset_advance_of_append hsplit.symm]
  simp only [rawAt?, h.dropBytes?_eq, htake, Option.bind_eq_bind, Option.bind_some]

theorem peek?_behind_raw (h : c.StandsIn source) :
    peek? source.toList (c.advance (c.rest.takeWhile (!isBracket ·)).length).offset =
      some (c.rest.dropWhile (!isBracket ·)).head? := by
  rw [(h.advance _).peek?_eq, Cursor.rest_advance, drop_length_takeWhile]

theorem advance_opening {closing : Bool} {body : List Char}
    (hplace : place.rest = '<' :: ((if closing then ['/'] else []) ++ body)) :
    place.advance (if closing then 2 else 1) =
      ⟨if closing then place.offset + 2 else place.offset + 1, body⟩ := by
  rw [Cursor.advance, hplace]
  cases closing <;> rfl

theorem peek?_behind_bracket (h : place.StandsIn source) {cs : List Char}
    (hplace : place.rest = '<' :: cs) :
    peek? source.toList (place.offset + 1) = some cs.head? := by
  have hone : (place.advance 1).offset = place.offset + 1 := Cursor.offset_advance_of_cons hplace
  rw [← hone, (h.advance 1).peek?_eq, Cursor.rest_advance, hplace, List.drop_succ_cons, List.drop_zero]

theorem tagAt?_eq (h : place.StandsIn source) {cs : List Char} (hplace : place.rest = '<' :: cs) :
    tagAt? source.toList place.offset =
      some ((nextTag place cs).1, (nextTag place cs).2.offset) := by
  have hpeek := peek?_behind_bracket h hplace
  obtain ⟨closing, body, rfl, hslash⟩ := exists_closing cs
  have hclosing : (((if closing then ['/'] else []) ++ body).head? == some '/') = closing := by
    cases closing with
    | true => rfl
    | false => simpa using hslash rfl
  have hopening := advance_opening hplace
  have hfront := h.advance (if closing then 2 else 1)
  have hstop : place.advance ((if closing then 2 else 1) +
      (body.takeWhile (!isBracket ·)).length) = _ :=
    (place.advance_advance _ _).symm
  rw [hopening] at hfront hstop
  simp only [tagAt?, hpeek, hclosing, rawAt?_eq hfront, peek?_behind_raw hfront, nextTag_eq hslash,
    hstop, Option.bind_eq_bind, Option.bind_some]
  by_cases hend : (body.dropWhile (!isBracket ·)).head? = some '>'
  · obtain ⟨rest, hrest⟩ := List.head?_eq_some_iff.mp hend
    have hbehind : (place.advance ((if closing then 2 else 1) +
        (body.takeWhile (!isBracket ·)).length)).rest = '>' :: rest := by
      rw [hstop, Cursor.rest_advance, drop_length_takeWhile, hrest]
    have hafter := Cursor.offset_advance_of_cons hbehind
    rw [Cursor.advance_advance, ← length_mark, hstop, show '>'.utf8Size = 1 from rfl] at hafter
    rw [if_pos hend, hafter]
    simp only [hend, beq_self_eq_true, if_true, List.isEmpty_iff, Symbol.ofMark]
    split_ifs <;> rfl
  · simp [hend]

theorem nextAt?_eq (h : c.StandsIn source) :
    nextAt? source.toList c.offset = some ((next c).1, (next c).2.offset) := by
  have hskip := h.skipBlanks?_eq (n := source.toList.length + 1) (Nat.lt_succ_of_le h.length_le)
  have hpeek := h.skipBlanks.peek?_eq
  simp only [nextAt?, next, hskip, hpeek, Option.bind_eq_bind, Option.bind_some]
  cases hrest : c.skipBlanks.rest with
  | nil => rfl
  | cons d rest =>
    simp only [List.head?_cons]
    split_ifs with hopen hclose
    · obtain rfl : d = '<' := by simpa using hopen
      exact tagAt?_eq h.skipBlanks hrest
    · rfl
    · simp only [rawAt?_eq h.skipBlanks, hrest, Option.bind_some]

end Dialects.Markup
