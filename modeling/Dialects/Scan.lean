import Dialects.Failure
import Dialects.Text.Cursor

/-!
# Tokens, scans and readers

What the dialects have in common: tokens with a place in the text, the run of them to the end or to a
failure, and the reading of documents token by token.
-/

namespace Dialects

open Dialects.Text (Cursor)

/-! ## Tokens

Each dialect has its symbols. A token is a symbol at a byte offset.
-/

/-- A symbol at the byte offset of its first character. -/
structure Token (σ : Type) where
  symbol : σ
  position : Nat
deriving DecidableEq

/-- The symbols of a dialect, their kinds, and how the next one is read from a text. A reading may
fail, and it moves the cursor even then. -/
class Lexicon (σ : Type) (κ : outParam Type) where
  kind : σ → κ
  kindName : κ → String
  /-- The text of a symbol, with escapes resolved. -/
  lexeme : σ → String
  /-- How messages show a symbol. -/
  shown : σ → String
  /-- The symbol that stands for the end of the text. -/
  eof : σ
  next : Cursor → Except Failure (Token σ) × Cursor

variable {σ κ : Type} [Lexicon σ κ] [DecidableEq κ]

/-! ## A token in the wrong place -/

namespace Token

def kind (t : Token σ) : κ := Lexicon.kind t.symbol

def shown (t : Token σ) : String := Lexicon.shown t.symbol

/-- Whether a token stands for the end of the text. -/
def isEof (t : Token σ) : Bool := t.kind == Lexicon.kind (Lexicon.eof : σ)

/-- The failure of a token that nothing starts with. -/
def unexpected (t : Token σ) : Failure :=
  ⟨if t.isEof then .unexpectedEof else .unexpectedToken t.shown, t.position⟩

/-- The failure of a token that stands where one of another kind has to. -/
def insteadOf (t : Token σ) (expected : κ) : Failure :=
  ⟨if t.isEof then .unexpectedEof
    else .expectedToken (Lexicon.kindName σ expected) t.shown, t.position⟩

/-- The failure of a token after a complete document. -/
def trailing (t : Token σ) : Failure := ⟨.trailingToken t.shown, t.position⟩

end Token

/-! ## Scans

A scan reads token after token until the end of the text or the first failure.
-/

/-- How a scan ends. -/
inductive Ending
  | eof (position : Nat)
  | failed (failure : Failure)
deriving DecidableEq

/-- The tokens of a text up to its end or the first failure. -/
structure Scan (σ : Type) where
  tokens : List (Token σ)
  ending : Ending

namespace Scan

/-- The same scan with one more token in front. -/
def cons (t : Token σ) (s : Scan σ) : Scan σ := ⟨t :: s.tokens, s.ending⟩

/-- Reads tokens from a cursor. Each takes at least one character, so there are at most as many as
characters are left. -/
def upTo : Nat → Cursor → Scan σ
  | 0, c => ⟨[], .eof c.offset⟩
  | n + 1, c =>
    match Lexicon.next c with
    | (.error f, _) => ⟨[], .failed f⟩
    | (.ok t, c') =>
      if t.isEof then ⟨[], .eof t.position⟩ else (upTo n c').cons t

def ofCursor (c : Cursor) : Scan σ := upTo c.rest.length c

def ofSource (source : String) : Scan σ := ofCursor (Cursor.start source)

/-- All tokens with that of the end, if the scan got there. -/
def toExcept (s : Scan σ) : Except Failure (List (Token σ)) :=
  match s.ending with
  | .eof position => .ok (s.tokens ++ [⟨Lexicon.eof, position⟩])
  | .failed f => .error f

end Scan

/-- The tokens of a text, the end included. -/
def tokenize (source : String) : Except Failure (List (Token σ)) := (Scan.ofSource source).toExcept

/-- The results of reading `n` tokens one after the other. A failed reading does not stop the next
one, which goes on from where it left the cursor. -/
def nextTokens : Nat → Cursor → List (Except Failure (Token σ))
  | 0, _ => []
  | n + 1, c =>
    let (result, c') := Lexicon.next c
    result :: nextTokens n c'

/-! ## Reading documents

A document is read token by token. A token may be refused on sight. What it stands for may also fail
to be decoded, but that comes up only once the token behind it has been read, because one token of
lookahead is read before the value is built.
-/

/-- A state of reading, a step for each token, and what the end of the text makes of a state. The
outer failure of a step is the refusal of its token, the inner one that of decoding it. -/
structure Reader (σ τ α : Type) where
  start : τ
  step : τ → Token σ → Except Failure (Except Failure τ)
  finish : τ → Nat → Except Failure α

namespace Reader

variable {σ τ α : Type}

/-- Reads tokens from a state, which may be one that was not decoded. -/
def run (r : Reader σ τ α) (ending : Ending) :
    Except Failure τ → List (Token σ) → Except Failure α
  | state, [] =>
    match ending with
    | .failed f => .error f
    | .eof position => do r.finish (← state) position
  | state, t :: ts => do r.run ending (← r.step (← state) t) ts

def read (r : Reader σ τ α) (scan : Scan σ) : Except Failure α :=
  r.run scan.ending (.ok r.start) scan.tokens

end Reader

end Dialects
