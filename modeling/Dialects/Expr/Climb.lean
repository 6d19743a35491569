import Dialects.Expr.Scan
import Dialects.Double.Decimal
import Dialects.Expr.Table
import Dialects.Scan

/-!
# Climbing powers

An expression is evaluated while it is read: an operand, and then operators with their right
operands for as long as they bind tightly enough. A table says which tokens these are.
-/

namespace Dialects.Expr

open Dialects.Text (byteLength)

/-! ## Streams of tokens

Tokens with a place among them. The last token is the end, and the place never gets behind it.
-/

/-- The tokens before the place, the nearest first, those from it on, and the end. -/
structure Stream where
  passed : List (Token Symbol)
  ahead : List (Token Symbol)
  endLexeme : String
  endPosition : Nat

namespace Stream

/-- The place before the first token. Tokens that do not close with an end get one, right behind
the text of the last. Positions are byte offsets into a text that is held in memory, and so is that of
the added end: the sum stays a number of bytes that a machine can address. -/
def ofTokens (tokens : List (Token Symbol)) : Stream :=
  match tokens.getLast? with
  | none => ⟨[], [], "EOF", 0⟩
  | some last =>
    if last.symbol.kind = .eof then ⟨[], tokens.dropLast, last.symbol.lexeme, last.position⟩
    else ⟨[], tokens, "EOF", last.position + byteLength last.symbol.lexeme.toList⟩

def endToken (s : Stream) : Token Symbol := ⟨⟨.eof, s.endLexeme⟩, s.endPosition⟩

/-- All tokens, wherever the place is. -/
def tokens (s : Stream) : List (Token Symbol) := s.passed.reverse ++ s.ahead ++ [s.endToken]

/-- How many tokens are before the place. -/
def index (s : Stream) : Nat := s.passed.length

/-- The token at the place. -/
def current (s : Stream) : Token Symbol := s.ahead.headD s.endToken

/-- Moves over one token, but not over the end. -/
def advance (s : Stream) : Stream :=
  match s.ahead with
  | [] => s
  | t :: ts => { s with passed := t :: s.passed, ahead := ts }

theorem ofTokens_concat (ts : List (Token Symbol)) (t : Token Symbol) : ofTokens (ts ++ [t]) =
    if t.symbol.kind = .eof then ⟨[], ts, t.symbol.lexeme, t.position⟩
    else ⟨[], ts ++ [t], "EOF", t.position + byteLength t.symbol.lexeme.toList⟩ := by
  simp [ofTokens]

@[simp] theorem tokens_advance (s : Stream) : s.advance.tokens = s.tokens := by
  obtain ⟨passed, ahead, _, _⟩ := s
  cases ahead <;> simp [advance, tokens, endToken]

theorem getElem?_tokens_index (s : Stream) : s.tokens[s.index]? = some s.current := by
  obtain ⟨passed, ahead, _, _⟩ := s
  cases ahead <;> simp [tokens, index, current, endToken]

end Stream

/-- A stream and how many expressions are open in it. -/
structure Climber where
  stream : Stream
  depth : Nat

/-- A reading that may fail. It changes the state even then. -/
abbrev Climb := ExceptT Failure (StateM Climber)

namespace Climb

/-! ## Steps of a climb -/

/-- The token at the place. -/
def current : Climb (Token Symbol) := do return (← get).stream.current

/-- Moves over the token at the place and gives it. -/
def advance : Climb (Token Symbol) := do
  let t ← current
  modify fun s => { s with stream := s.stream.advance }
  return t

/-- Moves over a token of a given kind only. -/
def expect (kind : Kind) : Climb (Token Symbol) := do
  let t ← current
  if t.symbol.kind = kind then advance else throw (t.insteadOf kind)

/-- Opens an expression if it is not nested too deep. -/
def enter : Climb Unit := do
  let s ← get
  if nestingLimit ≤ s.depth then throw ⟨.tooDeep nestingLimit, s.stream.current.position⟩
  else set { s with depth := s.depth + 1 }

/-- Closes an expression. -/
def leave : Climb Unit := modify fun s => { s with depth := s.depth - 1 }

/-! ## Operands and operators

Each rule is given how to read an expression whose operators have at least some power. -/

/-- A number. -/
def number : Climb Double := do
  let t ← advance
  match Double.read? t.symbol.lexeme.toList with
  | some x => return x
  | none => throw ⟨.malformedNumber t.symbol.lexeme, t.position⟩

/-- A sign and its operand. -/
def signed (expression : Nat → Climb Double) : Climb Double := do
  let t ← advance
  let x ← expression signPower
  return if t.symbol.kind = .dash then x.neg else x

/-- An expression between parentheses. -/
def group (expression : Nat → Climb Double) : Climb Double := do
  let _ ← advance
  let x ← expression 0
  let _ ← expect .closeParen
  return x

/-- An operator and its right operand. -/
def operation (expression : Nat → Climb Double) (left : Double) (power : Nat) : Climb Double := do
  let t ← advance
  let right ← expression power
  match Operator.ofKind? t.symbol.kind with
  | some operator => return operator.apply left right
  | none => throw ⟨.unexpectedToken t.shown, t.position⟩

/-- An operand, by the token it starts with. -/
def operand (table : Table) (expression : Nat → Climb Double) : Climb Double := do
  let t ← current
  match table.opening t.symbol.kind with
  | some .number => number
  | some .sign => signed expression
  | some .group => group expression
  | none => throw t.unexpected

/-- Operators of at least some power, `count` of them at most, each with its right operand. -/
def operations (table : Table) (expression : Nat → Climb Double) (power : Nat) :
    Nat → Double → Climb Double
  | 0, left => return left
  | count + 1, left => do
    let t ← current
    match table.binding t.symbol.kind with
    | none => return left
    | some b =>
      if b.power < power then return left
      else operations table expression power count (← operation expression left b.rightPower)

/-! ## Expressions -/

/-- An expression whose operators have at least some power, with as many levels left to open. An
operator takes a token, so there are no more operators than tokens ahead and the end. -/
def expressionWithin (table : Table) : Nat → Nat → Climb Double
  | 0, _ => do throw ⟨.tooDeep nestingLimit, (← current).position⟩
  | levels + 1, power => do
    enter
    let left ← operand table (expressionWithin table levels)
    let ahead := (← get).stream.ahead.length
    let x ← operations table (expressionWithin table levels) power (ahead + 1) left
    leave
    return x

/-- An expression whose operators have at least some power. -/
def expression (table : Table) (power : Nat) : Climb Double := do
  expressionWithin table (nestingLimit - (← get).depth) power

end Climb

/-! ## Evaluation

The value of a whole expression under the rules of arithmetic.
-/

/-- The place before the first of some tokens, with no expression open. -/
def Climber.ofTokens (tokens : List (Token Symbol)) : Climber := ⟨.ofTokens tokens, 0⟩

/-- One expression and then the end. -/
def document : Climb Double := do
  let x ← Climb.expression .arithmetic 0
  let t ← Climb.current
  if t.symbol.kind = .eof then return x else throw t.trailing

/-- The value of tokens. -/
def evaluateTokens (tokens : List (Token Symbol)) : Except Failure Double :=
  (document.run (Climber.ofTokens tokens)).1

/-- The value of a text. -/
def evaluate (source : String) : Except Failure Double := do evaluateTokens (← tokenize source)

end Dialects.Expr
