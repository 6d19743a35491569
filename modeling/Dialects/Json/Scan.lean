import Dialects.Text.Quoted
import Dialects.Scan
import Dialects.Json.Literal

/-!
# JSON tokens

A token is a punctuation character, a string, a number, or one of three words, after any blanks.
-/

namespace Dialects.Json

open Dialects.Text (Cursor isBlank)

/-! ## Symbols

A string symbol holds its text with the escapes resolved, a number symbol its literal.
-/

inductive Symbol
  | leftBrace
  | rightBrace
  | leftBracket
  | rightBracket
  | colon
  | comma
  | string (text : String)
  | number (literal : String)
  | boolean (value : Bool)
  | null
  | eof
deriving DecidableEq

inductive Kind
  | leftBrace
  | rightBrace
  | leftBracket
  | rightBracket
  | colon
  | comma
  | string
  | number
  | trueWord
  | falseWord
  | nullWord
  | eof
deriving DecidableEq

def Kind.all : List Kind :=
  [leftBrace, rightBrace, leftBracket, rightBracket, colon, comma, string, number, trueWord,
    falseWord, nullWord, eof]

def Kind.name : Kind → String
  | leftBrace => "LeftBrace"
  | rightBrace => "RightBrace"
  | leftBracket => "LeftBracket"
  | rightBracket => "RightBracket"
  | colon => "Colon"
  | comma => "Comma"
  | string => "String"
  | number => "Number"
  | trueWord => "True"
  | falseWord => "False"
  | nullWord => "Null"
  | eof => "EOF"

namespace Symbol

def kind : Symbol → Kind
  | leftBrace => .leftBrace
  | rightBrace => .rightBrace
  | leftBracket => .leftBracket
  | rightBracket => .rightBracket
  | colon => .colon
  | comma => .comma
  | string _ => .string
  | number _ => .number
  | boolean true => .trueWord
  | boolean false => .falseWord
  | null => .nullWord
  | eof => .eof

def lexeme : Symbol → String
  | leftBrace => "\x7b"
  | rightBrace => "\x7d"
  | leftBracket => "["
  | rightBracket => "]"
  | colon => ":"
  | comma => ","
  | string text => text
  | number literal => literal
  | boolean value => if value then "true" else "false"
  | null => "null"
  | eof => ""

/-- How messages show a symbol: a string in quotes, the end by its name. -/
def shown : Symbol → String
  | eof => "EOF"
  | string text => Text.quoted text
  | symbol => symbol.lexeme

/-- The symbol of a punctuation character. -/
def ofChar? (c : Char) : Option Symbol :=
  if c == '\x7b' then some leftBrace
  else if c == '\x7d' then some rightBrace
  else if c == '[' then some leftBracket
  else if c == ']' then some rightBracket
  else if c == ':' then some colon
  else if c == ',' then some comma
  else none

/-- The symbol of a word. -/
def ofWord? (word : String) : Option Symbol :=
  if word == "true" then some (boolean true)
  else if word == "false" then some (boolean false)
  else if word == "null" then some null
  else none

end Symbol

/-! ## Reading -/

/-- A letter, digit or underscore of ASCII: what a word goes on with. -/
def isWordChar (c : Char) : Bool := c.isAlphanum || c == '_'

/-- Whether a malformed number ends in front of a character. -/
def endsNumber (c : Char) : Bool :=
  isBlank c || c == ',' || c == ':' || c == ']' || c == '\x7d'

/-- Reads a string whose opening quote is at the cursor, `cs` being what follows the quote. -/
def nextString (place : Cursor) (cs : List Char) : Except Failure (Token Symbol) × Cursor :=
  match Literal.string cs with
  | .ok (text, length) => (.ok ⟨.string (String.ofList text), place.offset⟩, place.advance length)
  | .error halt => (.error ⟨halt.cause, (place.advance halt.place).offset⟩, place.advance halt.stop)

/-- Reads a number that starts at the cursor. -/
def nextNumber (place : Cursor) : Except Failure (Token Symbol) × Cursor :=
  match Literal.number? place.rest with
  | some literal =>
    (.ok ⟨.number (String.ofList literal), place.offset⟩, place.advance literal.length)
  | none =>
    let token := String.ofList (place.rest.takeWhile fun c => !endsNumber c)
    (.error ⟨.malformedNumber token, place.offset⟩, place)

/-- Reads a word that starts at the cursor with the letter `c`. -/
def nextWord (place : Cursor) (c : Char) : Except Failure (Token Symbol) × Cursor :=
  let word := place.rest.takeWhile isWordChar
  match Symbol.ofWord? (String.ofList word) with
  | some symbol => (.ok ⟨symbol, place.offset⟩, place.advance word.length)
  | none => (.error ⟨.unrecognisedCharacter c, place.offset⟩, place)

/-- Reads the next token. A failure leaves the cursor at the token, or inside it for a string. -/
def next (c : Cursor) : Except Failure (Token Symbol) × Cursor :=
  let here := c.skipBlanks
  match here.rest with
  | [] => (.ok ⟨.eof, here.offset⟩, here)
  | d :: rest =>
    match Symbol.ofChar? d with
    | some symbol => (.ok ⟨symbol, here.offset⟩, here.advance 1)
    | none =>
      if d == '"' then nextString here rest
      else if d.isDigit || d == '-' || d == '+' then nextNumber here
      else if d.isAlpha then nextWord here d
      else (.error ⟨.unrecognisedCharacter d, here.offset⟩, here)

instance : Lexicon Symbol Kind where
  kind := Symbol.kind
  kindName := Kind.name
  lexeme := Symbol.lexeme
  shown := Symbol.shown
  eof := .eof
  next := next

end Dialects.Json
