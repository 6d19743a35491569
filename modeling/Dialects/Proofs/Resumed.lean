import Dialects.Proofs.Json.Located
import Dialects.Proofs.Markup.Located

/-!
# Resumed readings

A document may be read from a token further on in a text. What is read is the text from this token on,
as if nothing had been in front of it.
-/

namespace Dialects

open Dialects.Text

/-! ## The text from a token on -/

namespace Lookahead

variable {σ κ : Type} [Lexicon σ κ] [DecidableEq κ]

/-- Moves on by a number of tokens, each of which has to be read. -/
def advances : Nat → Lookahead σ → Except Failure (Lookahead σ)
  | 0, l => .ok l
  | k + 1, l =>
    match l.advance with
    | (.error f, _) => .error f
    | (.ok _, l') => advances k l'

/-- Whether the token in hand is the one read at its place in a text, and the cursor is behind it. -/
structure StandsIn (source : String) (l : Lookahead σ) : Prop where
  next_eq : ∃ c, Cursor.StandsIn source c ∧ c.offset = l.current.position ∧
    Lexicon.next c = (.ok l.current, l.cursor)
  cursor : l.cursor.StandsIn source

variable [LocatedLexicon σ] {source : String} {l l' : Lookahead σ}

theorem standsIn_of_next {c c' : Cursor} {t : Token σ} (hc : c.StandsIn source)
    (h : Lexicon.next c = (.ok t, c')) : StandsIn source ⟨t, c'⟩ := by
  have hposition := LocatedLexicon.position_eq h
  obtain ⟨k, hk⟩ := LocatedLexicon.exists_advance (σ := σ) c
  obtain rfl : c' = c.skipBlanks.advance k := by rw [← hk, h]
  exact ⟨⟨c.skipBlanks, hc.skipBlanks, hposition.symm,
    (LawfulLexicon.next_skipBlanks c).trans h⟩, hc.skipBlanks.advance k⟩

theorem standsIn_ofSource (h : ofSource source = .ok l) : l.StandsIn source := by
  unfold ofSource at h
  split at h
  · simp at h
  · rename_i hnext
    obtain rfl := Except.ok.inj h
    exact standsIn_of_next (Cursor.standsIn_start source) hnext

theorem StandsIn.advance {t : Token σ} (hl : l.StandsIn source) (h : l.advance = (.ok t, l')) :
    l'.StandsIn source := by
  unfold Lookahead.advance at h
  split at h
  · simp at h
  · rename_i hnext
    obtain rfl := (Prod.mk.inj h).2
    exact standsIn_of_next hl.cursor hnext

theorem StandsIn.advances {k : Nat} (hl : l.StandsIn source) (h : l.advances k = .ok l') :
    l'.StandsIn source := by
  induction k generalizing l with
  | zero =>
    obtain rfl := Except.ok.inj h
    exact hl
  | succ k ih =>
    rw [Lookahead.advances] at h
    split at h
    · simp at h
    · rename_i hadvance
      exact ih (hl.advance hadvance) h

theorem StandsIn.toScan_eq [MovableLexicon σ] (hl : l.StandsIn source) : ∃ rest,
    dropBytes? l.current.position source.toList = some rest ∧
      l.toScan = (Scan.ofSource (String.ofList rest)).moved l.current.position := by
  obtain ⟨c, hc, hoffset, hnext⟩ := hl.next_eq
  refine ⟨c.rest, hoffset ▸ hc.dropBytes?_eq, ?_⟩
  -- The cursor at the token is the start of what is left, moved to the token.
  have hmoved : c = (Cursor.start (String.ofList c.rest)).moved l.current.position := by
    obtain ⟨offset, rest⟩ := c
    simpa [Cursor.start, Cursor.moved] using hoffset
  have hscan : l.toScan = Scan.ofCursor c := by
    rw [Scan.ofCursor_eq, hnext]
    rfl
  rw [hscan, hmoved, Scan.ofCursor_moved, ← hmoved]
  rfl

end Lookahead

/-! ## Reading on -/

/-- Whether reading from a token on is reading the text from there on, with failures moved along. -/
def Resumes (σ : Type) {κ : outParam Type} [Lexicon σ κ] [DecidableEq κ] {α : Type}
    (parse : String → Except Failure α) (parseFrom : Lookahead σ → Except Failure α) : Prop :=
  ∀ (source : String) (k : Nat) (first l : Lookahead σ),
    Lookahead.ofSource source = .ok first → first.advances k = .ok l →
    ∃ rest, dropBytes? l.current.position source.toList = some rest ∧
      parseFrom l = (parse (String.ofList rest)).mapError (.moved l.current.position)

theorem Reader.FailsInPlace.resumes {σ κ τ α : Type} [Lexicon σ κ] [DecidableEq κ]
    [LocatedLexicon σ] [MovableLexicon σ] {r : Reader σ τ α} (hr : r.FailsInPlace)
    (hr' : r.IgnoresPositions) :
    Resumes σ (fun source => r.read (Scan.ofSource source)) fun l => r.read l.toScan := by
  intro source k first l hfirst hl
  obtain ⟨rest, hrest, hscan⟩ := ((Lookahead.standsIn_ofSource hfirst).advances hl).toScan_eq
  exact ⟨rest, hrest, (congrArg r.read hscan).trans (read_moved hr hr' _ _)⟩

/-- From whichever token on, a JSON or markup document is read as if the text started there. -/
theorem resumes_of_dialects : Resumes Json.Symbol Json.parse Json.parseFrom ∧
    Resumes Markup.Symbol Markup.parse Markup.parseFrom :=
  ⟨Json.failsInPlace.resumes Json.ignoresPositions,
    Markup.failsInPlace.resumes Markup.ignoresPositions⟩

/-- Inside a tag, behind a leaf of two bytes. -/
theorem parseFrom_inside_tag : ∃ first l : Lookahead Markup.Symbol,
    Lookahead.ofSource "<a>é<b>1</c>" = .ok first ∧ first.advances 2 = .ok l ∧
      Markup.parseFrom l = .error ⟨.mismatchedCloseTag "b" "c", 9⟩ := by
  refine ⟨⟨⟨.openTag "a", 0⟩, 3, "é<b>1</c>".toList⟩, ⟨⟨.openTag "b", 5⟩, 8, "1</c>".toList⟩, rfl, rfl, ?_⟩
  obtain ⟨rest, hrest, hparse⟩ := resumes_of_dialects.2 "<a>é<b>1</c>" 2 _ _ rfl rfl
  obtain rfl : "<b>1</c>".toList = rest := Option.some.inj hrest
  exact hparse

end Dialects
