import Dialects.Scan
import Dialects.Lookahead
import Dialects.Double.Decimal
import Dialects.Json.Scan
import Dialects.Json.Value

/-!
# JSON documents

A document is one value. It is read with a stack of open containers. Where several faults compete,
the first token that cannot stand where it does decides.
-/

namespace Dialects.Json

/-- An open container around a place where a value stands: the items so far, last first, or the
members so far and the key of the one to come. -/
inductive Frame
  | items (before : List Value)
  | member (before : Entries Value) (name : String)

/-- What has been read, by what may come next. Frames are listed from the inside out. -/
inductive State
  /-- A value. -/
  | value (frames : List Frame)
  /-- The first item of an array, or its end. -/
  | firstItem (frames : List Frame)
  /-- The first key of an object, or its end. -/
  | firstKey (frames : List Frame)
  /-- The key after a comma. -/
  | laterKey (before : Entries Value) (frames : List Frame)
  /-- The colon after a key. -/
  | colon (before : Entries Value) (name : String) (frames : List Frame)
  /-- A comma, or the end of an array. -/
  | afterItem (before : List Value) (frames : List Frame)
  /-- A comma, or the end of an object. -/
  | afterMember (before : Entries Value) (frames : List Frame)
  /-- The end of the text. -/
  | root (value : Value)

namespace State

/-- Puts a value where it stands. -/
def place (v : Value) : List Frame → State
  | [] => root v
  | .items before :: frames => afterItem (v :: before) frames
  | .member before name :: frames => afterMember (Entries.insert name v before) frames

/-- Opens a container if it is not nested too deep. -/
def opened (t : Token Symbol) (frames : List Frame) (inside : State) : Except Failure State :=
  if nestingLimit ≤ frames.length then .error ⟨.tooDeep nestingLimit, t.position⟩ else .ok inside

/-- Reads the literal of a number. -/
def decoded (t : Token Symbol) (literal : String) : Except Failure Double :=
  match Double.read? literal.toList with
  | some x => .ok x
  | none => .error ⟨.malformedNumber literal, t.position⟩

/-- A token where a value has to start. -/
def startValue (t : Token Symbol) (frames : List Frame) : Except Failure (Except Failure State) :=
  match t.symbol with
  | .leftBrace => .ok <$> opened t frames (firstKey frames)
  | .leftBracket => .ok <$> opened t frames (firstItem frames)
  | .string text => .ok (.ok (place (.string text) frames))
  | .number literal => .ok ((decoded t literal).map fun x => place (.number x) frames)
  | .boolean b => .ok (.ok (place (.boolean b) frames))
  | .null => .ok (.ok (place .null frames))
  | _ => .error t.unexpected

/-- A token where a key has to stand. -/
def startMember (t : Token Symbol) (before : Entries Value) (frames : List Frame) :
    Except Failure (Except Failure State) :=
  match t.symbol with
  | .string name => .ok (.ok (colon before name frames))
  | _ => .error (t.insteadOf .string)

def step (state : State) (t : Token Symbol) : Except Failure (Except Failure State) :=
  match state with
  | value frames => startValue t frames
  | firstItem frames =>
    match t.symbol with
    | .rightBracket => .ok (.ok (place (.array []) frames))
    | _ => startValue t (.items [] :: frames)
  | firstKey frames =>
    match t.symbol with
    | .rightBrace => .ok (.ok (place (.object []) frames))
    | _ => startMember t [] frames
  | laterKey before frames => startMember t before frames
  | colon before name frames =>
    match t.symbol with
    | .colon => .ok (.ok (value (.member before name :: frames)))
    | _ => .error (t.insteadOf .colon)
  | afterItem before frames =>
    match t.symbol with
    | .comma => .ok (.ok (value (.items before :: frames)))
    | .rightBracket => .ok (.ok (place (.array before.reverse) frames))
    | _ => .error (t.insteadOf .rightBracket)
  | afterMember before frames =>
    match t.symbol with
    | .comma => .ok (.ok (laterKey before frames))
    | .rightBrace => .ok (.ok (place (.object before) frames))
    | _ => .error (t.insteadOf .rightBrace)
  | root _ => .error t.trailing

def finish (state : State) (position : Nat) : Except Failure Value :=
  match state with
  | root v => .ok v
  | _ => .error ⟨.unexpectedEof, position⟩

end State

/-- Reads one value from tokens. -/
def reader : Reader Symbol State Value := ⟨.value [], State.step, State.finish⟩

/-- Reads a whole text. -/
def parse (source : String) : Except Failure Value := reader.read (Scan.ofSource source)

/-- Reads the rest of a text of which the first token is in hand. -/
def parseFrom (l : Lookahead Symbol) : Except Failure Value := reader.read l.toScan

end Dialects.Json
