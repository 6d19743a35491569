import Dialects.Scan

/-!
# Reading by hand

A token in hand and the cursor behind it. A failed reading leaves the token in hand, but the cursor
stays where the reading got to.
-/

namespace Dialects

open Dialects.Text (Cursor)

structure Lookahead (σ : Type) where
  current : Token σ
  cursor : Cursor

namespace Lookahead

variable {σ κ : Type} [Lexicon σ κ] [DecidableEq κ]

/-- Takes the first token of a text in hand. -/
def ofSource (source : String) : Except Failure (Lookahead σ) :=
  match Lexicon.next (Cursor.start source) with
  | (.error f, _) => .error f
  | (.ok t, c) => .ok ⟨t, c⟩

/-- Takes the next token in hand and gives the one before. -/
def advance (l : Lookahead σ) : Except Failure (Token σ) × Lookahead σ :=
  match Lexicon.next l.cursor with
  | (.error f, c) => (.error f, ⟨l.current, c⟩)
  | (.ok t, c) => (.ok l.current, ⟨t, c⟩)

/-- Advances over a token of a given kind only. -/
def expect (l : Lookahead σ) (kind : κ) : Except Failure (Token σ) × Lookahead σ :=
  if l.current.kind = kind then l.advance else (.error (l.current.insteadOf kind), l)

/-- The token in hand and all that follow. -/
def toScan (l : Lookahead σ) : Scan σ :=
  if l.current.isEof then ⟨[], .eof l.current.position⟩
  else (Scan.ofCursor l.cursor).cons l.current

end Lookahead

end Dialects
