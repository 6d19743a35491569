import Dialects.Proofs.Json.Sliced
import Dialects.Proofs.Markup.Sliced

/-!
# Cursors on boundaries

However often the next token is read, and whatever fails on the way, the cursor is left at a boundary of
characters and never goes back. No reading asks for a part of the text that starts or ends elsewhere.
-/

namespace Dialects

open Dialects.Text

variable {σ κ : Type} [Lexicon σ κ]

/-- The cursor behind so many readings. Each goes on from where the one before left the cursor, failed
or not. -/
def cursorAfter (σ : Type) {κ : Type} [Lexicon σ κ] : Nat → Cursor → Cursor
  | 0, c => c
  | k + 1, c => (Lexicon.next (σ := σ) (cursorAfter σ k c)).2

theorem cursorAfter_next (k : Nat) (c : Cursor) :
    cursorAfter σ k (Lexicon.next (σ := σ) c).2 = cursorAfter σ (k + 1) c := by
  induction k with
  | zero => rfl
  | succ k ih => rw [cursorAfter, ih, ← cursorAfter]

variable [DecidableEq κ]

/-- Whether a cursor is at a boundary of a text and reading from there does not go back, goes on if it
gives a token, and comes to the same as reading by offsets, which cuts the text. -/
structure StepsOnBoundaries
    (nextAt? : List Char → Nat → Option (Except Failure (Token σ) × Nat)) (source : String)
    (c : Cursor) : Prop where
  isValid : (⟨c.offset⟩ : String.Pos.Raw).IsValid source
  offset_le : c.offset ≤ source.utf8ByteSize
  offset_le_next : c.offset ≤ (Lexicon.next (σ := σ) c).2.offset
  offset_lt_next {t : Token σ} : (Lexicon.next c).1 = .ok t → t.isEof = false →
    c.offset < (Lexicon.next (σ := σ) c).2.offset
  nextAt?_eq : nextAt? source.toList c.offset =
    some ((Lexicon.next (σ := σ) c).1, (Lexicon.next (σ := σ) c).2.offset)

variable [LocatedLexicon σ]

theorem exists_advance_of_next (c : Cursor) :
    ∃ k, (Lexicon.next (σ := σ) c).2 = c.advance k := by
  obtain ⟨k, hk⟩ := LocatedLexicon.exists_advance (σ := σ) c
  exact ⟨_, by rw [hk, Cursor.skipBlanks, Cursor.advance_advance]⟩

theorem standsIn_cursorAfter (source : String) (k : Nat) :
    (cursorAfter σ k (Cursor.start source)).StandsIn source := by
  induction k with
  | zero => exact Cursor.standsIn_start source
  | succ k ih =>
    obtain ⟨n, hn⟩ := exists_advance_of_next (σ := σ) (cursorAfter σ k (Cursor.start source))
    rw [cursorAfter, hn]
    exact ih.advance n

theorem offset_lt_of_next {c c' : Cursor} {t : Token σ} (h : Lexicon.next c = (.ok t, c'))
    (ht : t.isEof = false) : c.offset < c'.offset := by
  have hlt := LawfulLexicon.length_lt h ht
  obtain ⟨k, hk⟩ := exists_advance_of_next (σ := σ) c
  obtain rfl : c' = c.advance k := by rw [← hk, h]
  have hne : c.rest.take k ≠ [] := by
    intro hnil
    have hsplit := List.take_append_drop k c.rest
    rw [hnil, List.nil_append] at hsplit
    rw [Cursor.rest_advance, hsplit] at hlt
    exact lt_irrefl _ hlt
  exact Nat.lt_add_of_pos_right (byteLength_pos hne)

theorem stepsOnBoundaries {nextAt? : List Char → Nat → Option (Except Failure (Token σ) × Nat)}
    {source : String} {c : Cursor} (hc : c.StandsIn source)
    (h : nextAt? source.toList c.offset =
      some ((Lexicon.next (σ := σ) c).1, (Lexicon.next (σ := σ) c).2.offset)) :
    StepsOnBoundaries nextAt? source c where
  isValid := hc.isValid
  offset_le := hc.isValid.le_utf8ByteSize
  offset_le_next := by
    obtain ⟨k, hk⟩ := exists_advance_of_next (σ := σ) c
    rw [hk]
    exact Nat.le_add_right _ _
  offset_lt_next hnext ht := offset_lt_of_next (Prod.ext hnext rfl) ht
  nextAt?_eq := h

/-- In JSON and in markup, all readings one after the other step on boundaries. -/
theorem stepsOnBoundaries_of_dialects (source : String) (k : Nat) :
    StepsOnBoundaries Json.nextAt? source (cursorAfter Json.Symbol k (Cursor.start source)) ∧
      StepsOnBoundaries Markup.nextAt? source (cursorAfter Markup.Symbol k (Cursor.start source)) :=
  ⟨stepsOnBoundaries (standsIn_cursorAfter source k) (Json.nextAt?_eq (standsIn_cursorAfter source k)),
    stepsOnBoundaries (standsIn_cursorAfter source k)
      (Markup.nextAt?_eq (standsIn_cursorAfter source k))⟩

/-- The digits of the second escape fail, as four bytes of it are three characters, and the next token is
read from behind its `u`. -/
theorem stepsOnBoundaries_of_broken_escape :
    (⟨9⟩ : String.Pos.Raw).IsValid "\"\\ud83d\\u12é\"" ∧
      Json.nextAt? "\"\\ud83d\\u12é\"".toList 9 = some (.ok ⟨.number "12", 9⟩, 11) := by
  have h := (stepsOnBoundaries_of_dialects "\"\\ud83d\\u12é\"" 1).1
  exact ⟨h.isValid, h.nextAt?_eq⟩

end Dialects
