import Dialects.Text.Cursor
import Dialects.Failure

/-!
# Lines and diagnostics

A failure is shown with the line that it lies in.
-/

namespace Dialects.Text

/-! ## Lines

A line runs up to and including its newline. Every byte offset lies in one line, and offsets past
the end of a text count as its end.
-/

/-- The lines of a text. A text that closes with a newline has no further line behind it. -/
def lines : List Char → List (List Char)
  | [] => []
  | c :: cs =>
    if c == '\n' then [c] :: lines cs
    else
      match lines cs with
      | [] => [[c]]
      | line :: rest => (c :: line) :: rest

/-- A line with its number, counted from one, and a byte offset in it. -/
structure Line where
  number : Nat
  text : List Char
  column : Nat
deriving DecidableEq

namespace Line

/-- Finds the line of an offset among lines numbered from `number` on. The end of a text is in its
last line, or in an empty one behind a newline. -/
def locate (number offset : Nat) : List (List Char) → Line
  | [] => ⟨number, [], 0⟩
  | line :: rest =>
    if offset < byteLength line then ⟨number, line, offset⟩
    else if rest.isEmpty && line.getLast? != some '\n' then ⟨number, line, byteLength line⟩
    else locate (number + 1) (offset - byteLength line) rest

/-- The line of a byte offset in a text. -/
def ofPosition (source : String) (position : Nat) : Line :=
  let cs := source.toList
  locate 1 (min position (byteLength cs)) (lines cs)

/-- The offset counted in characters. One inside a character stays a count of bytes. -/
def charColumn (line : Line) : Nat :=
  match dropBytes? line.column line.text with
  | some rest => line.text.length - rest.length
  | none => line.column

end Line

end Dialects.Text

namespace Dialects.Diagnostic

open Dialects.Text (Line trimEnd)

/-! ## Diagnostics

A failure is shown under the line it is in, without the spaces and tabs in front of that line, and
with a caret under its place.
-/

/-- The spaces and tabs at the front of a line. -/
def indentation (cs : List Char) : List Char := cs.takeWhile fun c => c == ' ' || c == '\t'

/-- What went wrong, in one line. -/
def headline (f : Failure) : String :=
  match f.cause.tip with
  | none => "Error: " ++ f.cause.name
  | some tip => "Error: " ++ f.cause.name ++ " (" ++ tip ++ ")"

/-- A line of source behind its number. -/
def quotation (line : Line) : String :=
  let shown := trimEnd (line.text.drop (indentation line.text).length)
  toString line.number ++ " | " ++ String.ofList shown

/-- The bar of a line without a number, in the place where it stands behind a number. -/
def bar (line : Line) : String :=
  String.ofList (List.replicate ((toString line.number).length + 1) ' ') ++ "|"

/-- A caret at the end of dashes, under the column of a line. -/
def caret (line : Line) : String :=
  let dashes := line.charColumn - (indentation line.text).length
  String.ofList (List.replicate dashes '-') ++ "^"

/-- The diagnostic of a failure in a source of a given name. -/
def render (f : Failure) (source sourceName : String) : String :=
  let line := Line.ofPosition source f.position
  headline f ++ "\n-> " ++ sourceName ++ "\n" ++ bar line ++ "\n" ++ quotation line ++ "\n"
    ++ bar line ++ " " ++ caret line

end Dialects.Diagnostic
