import Dialects.Scan

/-!
# Markup tokens

A token is a tag in angle brackets or the text up to the next bracket, without the blanks around it.
Text between tags is a leaf, and its kind is told from its spelling.
-/

namespace Dialects.Markup

open Dialects.Text (Cursor trim)

/-! ## Symbols -/

inductive Symbol
  | openTag (name : String)
  | closeTag (name : String)
  | string (text : String)
  | number (literal : String)
  | boolean (value : Bool)
  | null
  | eof
deriving DecidableEq

inductive Kind
  | openTag
  | closeTag
  | string
  | number
  | boolean
  | null
  | eof
deriving DecidableEq

def Kind.all : List Kind := [openTag, closeTag, string, number, boolean, null, eof]

def Kind.name : Kind → String
  | openTag => "OpenTag"
  | closeTag => "CloseTag"
  | string => "String"
  | number => "Number"
  | boolean => "Boolean"
  | null => "Null"
  | eof => "EOF"

/-- Whether a text is a run of digits with an optional sign. It is what the pattern `^[-+]?[0-9]+$`
matches, with the anchors as documented: at the ends of the whole text, not of the lines in it. -/
def isInteger (cs : List Char) : Bool :=
  let digits := match cs with
    | '-' :: rest => rest
    | '+' :: rest => rest
    | _ => cs
  !digits.isEmpty && digits.all Char.isDigit

namespace Symbol

def kind : Symbol → Kind
  | openTag _ => .openTag
  | closeTag _ => .closeTag
  | string _ => .string
  | number _ => .number
  | boolean _ => .boolean
  | null => .null
  | eof => .eof

/-- The name of a tag, or the text of a leaf. -/
def lexeme : Symbol → String
  | openTag name => name
  | closeTag name => name
  | string text => text
  | number literal => literal
  | boolean value => if value then "true" else "false"
  | null => "NULL"
  | eof => ""

/-- How messages show a symbol: a tag in brackets, the end by its name. -/
def shown : Symbol → String
  | openTag name => "<" ++ name ++ ">"
  | closeTag name => "</" ++ name ++ ">"
  | eof => "EOF"
  | symbol => symbol.lexeme

/-- The leaf that a text spells. What is neither an integer nor one of three words is a string. -/
def ofText (cs : List Char) : Symbol :=
  let text := String.ofList cs
  if isInteger cs then number text
  else if text == "true" then boolean true
  else if text == "false" then boolean false
  else if text == "NULL" then null
  else string text

end Symbol

/-! ## Reading -/

def isBracket (c : Char) : Bool := c == '<' || c == '>'

/-- Reads a tag whose opening bracket is at the cursor, `cs` being what follows the bracket. -/
def nextTag (place : Cursor) (cs : List Char) : Except Failure (Token Symbol) × Cursor :=
  let closing := cs.head? == some '/'
  let body := if closing then cs.drop 1 else cs
  let raw := body.takeWhile (!isBracket ·)
  let name := trim raw
  let length := (if closing then 2 else 1) + raw.length
  if (body.drop raw.length).head? == some '>' then
    let after := place.advance (length + 1)
    if name.isEmpty then (.error ⟨.emptyTagName, place.offset⟩, after)
    else
      let name := String.ofList name
      (.ok ⟨if closing then .closeTag name else .openTag name, place.offset⟩, after)
  else (.error ⟨.unterminatedTag (String.ofList name), place.offset⟩, place.advance length)

/-- Reads the next token. A failure leaves the cursor at a stray bracket, but behind a tag. -/
def next (c : Cursor) : Except Failure (Token Symbol) × Cursor :=
  let here := c.skipBlanks
  match here.rest with
  | [] => (.ok ⟨.eof, here.offset⟩, here)
  | d :: rest =>
    if d == '<' then nextTag here rest
    else if d == '>' then (.error ⟨.unrecognisedCharacter d, here.offset⟩, here)
    else
      let raw := here.rest.takeWhile (!isBracket ·)
      (.ok ⟨Symbol.ofText (trim raw), here.offset⟩, here.advance raw.length)

instance : Lexicon Symbol Kind where
  kind := Symbol.kind
  kindName := Kind.name
  lexeme := Symbol.lexeme
  shown := Symbol.shown
  eof := .eof
  next := next

end Dialects.Markup
