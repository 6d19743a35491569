import Dialects.Failure

/-!
# JSON string and number literals

Reading the characters of a literal, counted from its first. A failure says at which character it
lies and up to which one it has read.
-/

namespace Dialects.Json.Literal

/-- A failed reading: its cause, the character it lies at, and the character it stopped at. -/
structure Halt where
  cause : Cause
  place : Nat
  stop : Nat

/-! ## Escapes -/

/-- The character of an escape of one letter. -/
def simpleEscape? (c : Char) : Option Char :=
  if c == '"' || c == '\\' || c == '/' then some c
  else if c == 'b' then some '\x08'
  else if c == 'f' then some '\x0c'
  else if c == 'n' then some '\n'
  else if c == 'r' then some '\r'
  else if c == 't' then some '\t'
  else none

def hexDigit? (c : Char) : Option Nat :=
  if '0' ≤ c && c ≤ '9' then some (c.toNat - '0'.toNat)
  else if 'a' ≤ c && c ≤ 'f' then some (c.toNat - 'a'.toNat + 10)
  else if 'A' ≤ c && c ≤ 'F' then some (c.toNat - 'A'.toNat + 10)
  else none

/-- The number that the next four characters spell in base sixteen. -/
def codeUnit? : List Char → Option Nat
  | a :: b :: c :: d :: _ => do
    let a ← hexDigit? a
    let b ← hexDigit? b
    let c ← hexDigit? c
    let d ← hexDigit? d
    some (((a * 16 + b) * 16 + c) * 16 + d)
  | _ => none

def isHighSurrogate (u : Nat) : Bool := 0xD800 ≤ u && u < 0xDC00

def isLowSurrogate (u : Nat) : Bool := 0xDC00 ≤ u && u < 0xE000

/-- The character that a high and a low surrogate name together. -/
def ofSurrogates (high low : Nat) : Char :=
  Char.ofNat (0x10000 + (high - 0xD800) * 0x400 + (low - 0xDC00))

/-- An escape by code units, from behind the `u`. It gives the character and the length of the
spelling, or how much of the spelling was read. Lengths count the backslash and the `u`. -/
def unicodeEscape (cs : List Char) : Except Nat (Char × Nat) :=
  match codeUnit? cs with
  | none => .error 2
  | some unit =>
    if isHighSurrogate unit then
      match cs.drop 4 with
      | '\\' :: 'u' :: rest =>
        match codeUnit? rest with
        | none => .error 8
        | some low => if isLowSurrogate low then .ok (ofSurrogates unit low, 12) else .error 12
      | _ => .error 6
    else if isLowSurrogate unit then .error 6
    else .ok (Char.ofNat unit, 6)

/-- An escape, from behind its backslash. A failure shows what was read of it, and of one by code
units four characters more. -/
def escape : List Char → Except (Cause × Nat) (Char × Nat)
  | [] => .error (.unterminatedString, 1)
  | 'u' :: rest =>
    match unicodeEscape rest with
    | .ok spelled => .ok spelled
    | .error n =>
      .error (.invalidUnicodeEscape (String.ofList (('\\' :: 'u' :: rest).take (n + 4))), n)
  | c :: _ =>
    match simpleEscape? c with
    | some d => .ok (d, 2)
    | none => .error (.invalidEscape (String.ofList ['\\', c]), 2)

/-! ## Strings -/

/-- The body of a string literal, `taken` characters into the literal. Gives the text and the length
of the literal. The text read so far is held last character first. -/
def stringBody : Nat → Nat → List Char → List Char → Except Halt (List Char × Nat)
  | 0, taken, _, _ => .error ⟨.unterminatedString, 0, taken⟩
  | _ + 1, taken, _, [] => .error ⟨.unterminatedString, 0, taken⟩
  | n + 1, taken, text, c :: cs =>
    if c == '"' then .ok (text.reverse, taken + 1)
    else if c == '\\' then
      match escape cs with
      | .ok (d, length) => stringBody n (taken + length) (d :: text) (cs.drop (length - 1))
      | .error (cause, length) => .error ⟨cause, taken, taken + length⟩
    else stringBody n (taken + 1) (c :: text) cs

/-- A string literal, from behind its opening quote. -/
def string (cs : List Char) : Except Halt (List Char × Nat) := stringBody (cs.length + 1) 1 [] cs

/-! ## Numbers -/

/-- An optional sign. -/
def sign : List Char → List Char
  | '-' :: _ => ['-']
  | '+' :: _ => ['+']
  | _ => []

/-- A point with at least one digit behind it, or nothing. -/
def fraction : List Char → List Char
  | '.' :: rest =>
    let digits := rest.takeWhile Char.isDigit
    if digits.isEmpty then [] else '.' :: digits
  | _ => []

/-- An exponent mark with an optional sign and at least one digit behind it, or nothing. -/
def exponent : List Char → List Char
  | c :: rest =>
    if c == 'e' || c == 'E' then
      let digits := (rest.drop (sign rest).length).takeWhile Char.isDigit
      if digits.isEmpty then [] else c :: (sign rest ++ digits)
    else []
  | _ => []

/-- The longest number literal at the front: an optional sign, digits, and maybe a fraction and an
exponent. It is what the pattern `^[-+]?[0-9]+(\.[0-9]+)?([eE][-+]?[0-9]+)?` matches at the front of
what is left of the text, as patterns are documented: leftmost, and each part as long as it can be. -/
def number? (cs : List Char) : Option (List Char) :=
  let unsigned := cs.drop (sign cs).length
  let digits := unsigned.takeWhile Char.isDigit
  let tail := unsigned.dropWhile Char.isDigit
  let part := fraction tail
  if digits.isEmpty then none
  else some (sign cs ++ digits ++ part ++ exponent (tail.drop part.length))

end Dialects.Json.Literal
