import Dialects.Scan

/-!
# Tokens of arithmetic

A token is a number or one character. A number has at most one point, and a point alone is one too.
-/

namespace Dialects.Expr

open Dialects.Text (Cursor)

/-! ## Symbols

A symbol is a kind and the text it was read from. Only the text of a number matters to its value.
-/

inductive Kind
  | eof
  | number
  | openParen
  | closeParen
  | plus
  | dash
  | star
  | slash
  | caret
deriving DecidableEq

namespace Kind

def all : List Kind := [eof, number, openParen, closeParen, plus, dash, star, slash, caret]

def name : Kind → String
  | eof => "EOF"
  | number => "Number"
  | openParen => "OpenParen"
  | closeParen => "CloseParen"
  | plus => "Plus"
  | dash => "Dash"
  | star => "Star"
  | slash => "Slash"
  | caret => "Caret"

end Kind

structure Symbol where
  kind : Kind
  lexeme : String
deriving DecidableEq

namespace Symbol

/-- The end of a text. -/
def eof : Symbol := ⟨.eof, "EOF"⟩

/-- How messages show a symbol. -/
def shown (s : Symbol) : String := if s.kind = .eof then "EOF" else s.lexeme

/-- The kind of a character that is a symbol by itself. -/
def kindOfChar? (c : Char) : Option Kind :=
  if c == '(' then some .openParen
  else if c == ')' then some .closeParen
  else if c == '+' then some .plus
  else if c == '-' then some .dash
  else if c == '*' then some .star
  else if c == '/' then some .slash
  else if c == '^' then some .caret
  else none

end Symbol

/-! ## Reading -/

/-- A point and the digits behind it, or nothing. -/
def fraction : List Char → List Char
  | '.' :: rest => '.' :: rest.takeWhile Char.isDigit
  | _ => []

/-- The longest number at the front, empty if there is none: digits, a point, and digits, with at
least a digit or a point. It is what the pattern `^([0-9]+\.?[0-9]*|\.[0-9]*)` matches at the front of
what is left of the text, as patterns are documented: the first branch that fits, each part as long
as it can be. -/
def number (cs : List Char) : List Char :=
  cs.takeWhile Char.isDigit ++ fraction (cs.dropWhile Char.isDigit)

/-- Reads the next token. A failure leaves the cursor at a foreign character. -/
def next (c : Cursor) : Except Failure (Token Symbol) × Cursor :=
  let here := c.skipBlanks
  match here.rest with
  | [] => (.ok ⟨.eof, here.offset⟩, here)
  | d :: _ =>
    match Symbol.kindOfChar? d with
    | some kind => (.ok ⟨⟨kind, d.toString⟩, here.offset⟩, here.advance 1)
    | none =>
      let literal := number here.rest
      if literal.isEmpty then (.error ⟨.unrecognisedCharacter d, here.offset⟩, here)
      else (.ok ⟨⟨.number, String.ofList literal⟩, here.offset⟩, here.advance literal.length)

instance : Lexicon Symbol Kind where
  kind := Symbol.kind
  kindName := Kind.name
  lexeme := Symbol.lexeme
  shown := Symbol.shown
  eof := .eof
  next := next

end Dialects.Expr
