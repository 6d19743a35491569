import Dialects.Double.Decimal
import Dialects.Text.Cursor

/-!
# Markup values

A value is a leaf or a tag with children. Adding a tag to the children of another joins it to the
first child of the same name, so that a name is used once among them.
-/

namespace Dialects.Markup

inductive Value
  | null
  | boolean (value : Bool)
  | number (value : Int64)
  | string (value : String)
  | tagged (name : String) (children : List Value)

/-- A name and the values under it. -/
structure Tag where
  name : String
  children : List Value

namespace Value

def ofTag (tag : Tag) : Value := tagged tag.name tag.children

/-! ## Views -/

def isNull : Value → Bool
  | null => true
  | _ => false

def asBoolean? : Value → Option Bool
  | boolean value => some value
  | _ => none

def asNumber? : Value → Option Int64
  | number value => some value
  | _ => none

def asString? : Value → Option String
  | string value => some value
  | _ => none

def asTag? : Value → Option Tag
  | tagged name children => some ⟨name, children⟩
  | _ => none

def isTag : Value → Bool
  | tagged _ _ => true
  | _ => false

/-! ## Equality -/

mutual

def equal : Value → Value → Bool
  | null, null => true
  | boolean a, boolean b => a == b
  | number a, number b => a == b
  | string a, string b => a == b
  | tagged m as, tagged n bs => m == n && equalAll as bs
  | _, _ => false

def equalAll : List Value → List Value → Bool
  | [], [] => true
  | a :: as, b :: bs => equal a b && equalAll as bs
  | _, _ => false

end

/-! ## Joining -/

/-- Two tags of one name in one, with the children of both. Nothing else can be joined. -/
def join? : Value → Value → Option Value
  | tagged m as, tagged n bs => if m = n then some (tagged m (as ++ bs)) else none
  | _, _ => none

/-- Joins a value to the first of a list that it can be joined to, or appends it. -/
def addTo (v : Value) : List Value → List Value
  | [] => [v]
  | w :: ws =>
    match join? w v with
    | some joined => joined :: ws
    | none => w :: addTo v ws

end Value

namespace Tag

/-- A tag without children. -/
def empty (name : String) : Tag := ⟨name, []⟩

/-- Adds a child. -/
def add (tag : Tag) (v : Value) : Tag := ⟨tag.name, v.addTo tag.children⟩

/-- The first child that is a tag of a given name. -/
def child? (tag : Tag) (name : String) : Option Tag :=
  (tag.children.filterMap Value.asTag?).find? (·.name == name)

/-- The first child that is a number. -/
def number? (tag : Tag) : Option Int64 := tag.children.findSome? Value.asNumber?

/-- The first child that is a string. -/
def string? (tag : Tag) : Option String := tag.children.findSome? Value.asString?

/-- The first child that is a truth value. -/
def boolean? (tag : Tag) : Option Bool := tag.children.findSome? Value.asBoolean?

end Tag

/-! ## Integers

Numbers of a markup text are integers of 64 bits in decimal.
-/

namespace Integer

/-- The integer that an optional sign and digits spell, of whatever size. -/
def value : List Char → Int
  | '-' :: digits => -(Decimal.digitsValue digits : Int)
  | '+' :: digits => Decimal.digitsValue digits
  | digits => Decimal.digitsValue digits

/-- The integer that a literal spells, if it has 64 bits. -/
def read? (cs : List Char) : Option Int64 :=
  let n := value cs
  if Int64.minValue.toInt ≤ n ∧ n ≤ Int64.maxValue.toInt then some (Int64.ofInt n) else none

/-- The decimal spelling of an integer. -/
def text (n : Int64) : List Char :=
  let sign := if n.toInt < 0 then ['-'] else []
  sign ++ Decimal.digits n.toInt.natAbs

end Integer

/-! ## Written markup

Leaves are written as they are; the dialect has no escapes. In the indented layout each child stands
on a line of its own, but a tag with nothing or a single leaf in it stays on one line.
-/

def openMark (name : String) : List Char := '<' :: (name.toList ++ ['>'])

def closeMark (name : String) : List Char := '<' :: '/' :: (name.toList ++ ['>'])

/-- Whether the children of a tag are written on the line of the tag. -/
def staysOnLine : List Value → Bool
  | [] => true
  | [v] => !v.isTag
  | _ => false

namespace Value

mutual

/-- The characters of a value that is nested `depth` deep. -/
def write (layout : Layout) (depth : Nat) : Value → List Char
  | null => "NULL".toList
  | boolean value => if value then "true".toList else "false".toList
  | number value => Integer.text value
  | string value => value.toList
  | tagged name children =>
    openMark name ++
      ((if staysOnLine children then writeAll .compact (depth + 1) children
        else writeAll layout (depth + 1) children ++ layout.lineBreak depth) ++ closeMark name)

/-- Children that are nested `depth` deep. -/
def writeAll (layout : Layout) (depth : Nat) : List Value → List Char
  | [] => []
  | v :: vs => layout.lineBreak depth ++ (write layout depth v ++ writeAll layout depth vs)

end

/-- The text of a value. -/
def text (layout : Layout) (v : Value) : String := String.ofList (v.write layout 0)

end Value

end Dialects.Markup
