import Dialects.Text.Quoted

/-!
# Failures

A failed reading is a cause and the byte offset it was met at. Each cause has a name, a message and
a tip, and belongs either to the tokens of a text or to their order.
-/

namespace Dialects

open Dialects.Text (quoted quotedChar)

/-- How deep containers, tags and operands may nest. -/
def nestingLimit : Nat := 128

/-- What went wrong. -/
inductive Cause
  | unrecognisedCharacter (character : Char)
  | unterminatedString
  | invalidEscape (sequence : String)
  | invalidUnicodeEscape (sequence : String)
  | malformedNumber (token : String)
  | unterminatedTag (name : String)
  | emptyTagName
  | unexpectedToken (token : String)
  | expectedToken (expected found : String)
  | unexpectedEof
  | trailingToken (token : String)
  | mismatchedCloseTag (expected found : String)
  | tooDeep (limit : Nat)
deriving DecidableEq

/-- Whether a token could not be made out or stands in the wrong place. -/
inductive Phase
  | lexical
  | grammatical
deriving DecidableEq

/-- Advice that goes with a failure, if there is any. -/
abbrev Tip := Option String

/-- The words of a tip; no tip has none. -/
def Tip.text (tip : Tip) : String := tip.getD ""

namespace Cause

def phase : Cause → Phase
  | unrecognisedCharacter _ | unterminatedString | invalidEscape _ | invalidUnicodeEscape _
  | malformedNumber _ | unterminatedTag _ | emptyTagName => .lexical
  | unexpectedToken _ | expectedToken _ _ | unexpectedEof | trailingToken _
  | mismatchedCloseTag _ _ | tooDeep _ => .grammatical

def name : Cause → String
  | unrecognisedCharacter _ => "UnrecognisedCharacter"
  | unterminatedString => "UnterminatedString"
  | invalidEscape _ => "InvalidEscape"
  | invalidUnicodeEscape _ => "InvalidUnicodeEscape"
  | malformedNumber _ => "NumberParseError"
  | unterminatedTag _ => "UnterminatedTag"
  | emptyTagName => "EmptyTagName"
  | unexpectedToken _ => "UnexpectedToken"
  | expectedToken _ _ => "ExpectedToken"
  | unexpectedEof => "UnexpectedEof"
  | trailingToken _ => "TrailingToken"
  | mismatchedCloseTag _ _ => "MismatchedCloseTag"
  | tooDeep _ => "RecursionLimitExceeded"

/-- The message without its position. -/
def message : Cause → String
  | unrecognisedCharacter character => "unrecognised character: " ++ quotedChar character
  | unterminatedString => "unterminated string"
  | invalidEscape sequence => "invalid escape: " ++ quoted sequence
  | invalidUnicodeEscape sequence => "invalid unicode escape: " ++ quoted sequence
  | malformedNumber token => "error parsing number: " ++ quoted token
  | unterminatedTag name => "unterminated tag: " ++ quoted name
  | emptyTagName => "empty tag name"
  | unexpectedToken token => "unexpected token: " ++ quoted token
  | expectedToken expected found => "expected " ++ expected ++ ", got " ++ quoted found
  | unexpectedEof => "unexpected end of input"
  | trailingToken token => "unexpected token after root value: " ++ quoted token
  | mismatchedCloseTag expected found =>
    "mismatched close tag: expected " ++ quoted expected ++ ", got " ++ quoted found
  | tooDeep limit => "recursion limit of " ++ toString limit ++ " exceeded"

def tip : Cause → Tip
  | unrecognisedCharacter character =>
    some ("Unrecognised character: `" ++ character.toString ++ "`")
  | unterminatedString => some "Add the closing `\"` to the string"
  | invalidEscape sequence =>
    some ("`" ++ sequence
      ++ "` is not an escape, use one of \\\" \\\\ \\/ \\b \\f \\n \\r \\t \\uXXXX")
  | invalidUnicodeEscape sequence =>
    some ("`" ++ sequence
      ++ "` must be \\u followed by 4 hex digits naming a valid code point")
  | malformedNumber token =>
    some ("Invalid number: `" ++ token ++ "`, is it above the integer limit?")
  | unterminatedTag name => some ("Tag `" ++ name ++ "` is missing its closing `>`")
  | emptyTagName => some "Tags need a name between `<` and `>`"
  | unexpectedToken token => some ("Unexpected token: `" ++ token ++ "`")
  | expectedToken expected found =>
    some ("Expected " ++ expected ++ ", found `" ++ found ++ "`")
  | unexpectedEof => some "Input ended early, is something left unclosed?"
  | trailingToken token => some ("Only one root value is allowed, remove `" ++ token ++ "`")
  | mismatchedCloseTag expected found =>
    some ("Expected `</" ++ expected ++ ">` but found `</" ++ found ++ ">`")
  | tooDeep limit => some ("Nesting is limited to " ++ toString limit ++ " levels")

end Cause

/-- A cause at a byte offset. -/
structure Failure where
  cause : Cause
  position : Nat
deriving DecidableEq

/-- The whole message of a failure. -/
def Failure.message (f : Failure) : String :=
  f.cause.message ++ " at position " ++ toString f.position

end Dialects
