import Dialects.Scan
import Dialects.Lookahead
import Dialects.Markup.Value
import Dialects.Markup.Scan

/-!
# Markup documents

A document is one leaf or one tag. It is read with a stack of open tags, and each child is joined to
its siblings when it is complete. Where several faults compete, the first token that cannot stand
where it does decides.
-/

namespace Dialects.Markup

/-- What has been read. Open tags are listed from the inside out, with the children so far. -/
inductive State
  /-- Nothing yet. -/
  | start
  /-- An open tag within others. -/
  | inside (tag : Tag) (outer : List Tag)
  /-- The whole document. -/
  | root (value : Value)

namespace State

/-- Puts a complete value into the innermost open tag. -/
def place (v : Value) : List Tag → State
  | [] => root v
  | tag :: outer => inside (tag.add v) outer

/-- Opens a tag if it is not nested too deep. -/
def opened (t : Token Symbol) (name : String) (tags : List Tag) : Except Failure State :=
  if nestingLimit ≤ tags.length then .error ⟨.tooDeep nestingLimit, t.position⟩
  else .ok (inside (Tag.empty name) tags)

/-- Reads the literal of a number. -/
def decoded (t : Token Symbol) (literal : String) : Except Failure Int64 :=
  match Integer.read? literal.toList with
  | some n => .ok n
  | none => .error ⟨.malformedNumber literal, t.position⟩

/-- A token where a value may start. -/
def startValue (t : Token Symbol) (tags : List Tag) : Except Failure (Except Failure State) :=
  match t.symbol with
  | .openTag name => .ok <$> opened t name tags
  | .string text => .ok (.ok (place (.string text) tags))
  | .number literal => .ok ((decoded t literal).map fun n => place (.number n) tags)
  | .boolean value => .ok (.ok (place (.boolean value) tags))
  | .null => .ok (.ok (place .null tags))
  | _ => .error t.unexpected

def step (state : State) (t : Token Symbol) : Except Failure (Except Failure State) :=
  match state with
  | start => startValue t []
  | inside tag outer =>
    match t.symbol with
    | .closeTag name =>
      if name = tag.name then .ok (.ok (place (.ofTag tag) outer))
      else .error ⟨.mismatchedCloseTag tag.name name, t.position⟩
    | _ => startValue t (tag :: outer)
  | root _ => .error t.trailing

def finish (state : State) (position : Nat) : Except Failure Value :=
  match state with
  | root v => .ok v
  | _ => .error ⟨.unexpectedEof, position⟩

end State

/-- Reads one value from tokens. -/
def reader : Reader Symbol State Value := ⟨.start, State.step, State.finish⟩

/-- Reads a whole text. -/
def parse (source : String) : Except Failure Value := reader.read (Scan.ofSource source)

/-- Reads the rest of a text of which the first token is in hand. -/
def parseFrom (l : Lookahead Symbol) : Except Failure Value := reader.read l.toScan

end Dialects.Markup
