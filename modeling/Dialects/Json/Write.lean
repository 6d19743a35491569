import Dialects.Double.Decimal
import Dialects.Json.Value
import Dialects.Text.Cursor

/-!
# Written JSON

A value is written either without blanks or with each item and member on a line of its own. Numbers
that are not finite have no spelling and are written as null.
-/

namespace Dialects.Json

/-- What stands between a key and its value. -/
def keyMark : Layout → List Char
  | .compact => [':']
  | .indented => [':', ' ']

/-! ## Strings and numbers -/

/-- Whether a character is a control character. -/
def isControl (c : Char) : Bool := c.toNat < 0x20 || (0x7F ≤ c.toNat && c.toNat < 0xA0)

/-- The four digits of a code unit in base sixteen. -/
def hexDigits4 (n : Nat) : List Char :=
  [n / 0x1000 % 16, n / 0x100 % 16, n / 0x10 % 16, n % 16].map Nat.digitChar

/-- One character inside a string literal. -/
def writeChar (c : Char) : List Char :=
  if c == '"' then ['\\', '"']
  else if c == '\\' then ['\\', '\\']
  else if c == '\x08' then ['\\', 'b']
  else if c == '\x0c' then ['\\', 'f']
  else if c == '\n' then ['\\', 'n']
  else if c == '\r' then ['\\', 'r']
  else if c == '\t' then ['\\', 't']
  else if isControl c then '\\' :: 'u' :: hexDigits4 c.toNat
  else [c]

def writeString (s : String) : List Char := '"' :: s.toList.flatMap writeChar ++ ['"']

def writeNumber (x : Double) : List Char := if x.isFinite then x.text else "null".toList

/-! ## Values -/

namespace Value

/-- The comma after an item or a member that is not the last. -/
def separator (isLast : Bool) : List Char := if isLast then [] else [',']

mutual

/-- The characters of a value that is nested `depth` deep. -/
def write (layout : Layout) (depth : Nat) : Value → List Char
  | null => "null".toList
  | boolean value => if value then "true".toList else "false".toList
  | number value => writeNumber value
  | string value => writeString value
  | array items =>
    if items.isEmpty then ['[', ']']
    else '[' :: (writeItems layout (depth + 1) items ++ (layout.lineBreak depth ++ [']']))
  | object members =>
    if members.isEmpty then ['\x7b', '\x7d']
    else
      '\x7b' :: (writeMembers layout (depth + 1) members ++ (layout.lineBreak depth ++ ['\x7d']))

/-- Items that are nested `depth` deep. -/
def writeItems (layout : Layout) (depth : Nat) : List Value → List Char
  | [] => []
  | v :: vs =>
    layout.lineBreak depth ++ (write layout depth v
      ++ (separator vs.isEmpty ++ writeItems layout depth vs))

/-- Members that are nested `depth` deep. -/
def writeMembers (layout : Layout) (depth : Nat) : List (String × Value) → List Char
  | [] => []
  | (key, v) :: ms =>
    layout.lineBreak depth ++ (writeString key ++ (keyMark layout ++ (write layout depth v
      ++ (separator ms.isEmpty ++ writeMembers layout depth ms))))

end

/-- The text of a value. -/
def text (layout : Layout) (v : Value) : String := String.ofList (v.write layout 0)

end Value

end Dialects.Json
