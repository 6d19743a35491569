import Dialects.Proofs.Agree
import Dialects.Proofs.Markup.Refused
import Dialects.Proofs.Located

/-!
# Places of markup tokens

Where a markup token stands and where its reading fails, in a text that may be moved.
-/

namespace Dialects.Markup

open Dialects.Text

/-! ## Moved texts -/

theorem nextTag_moved (n : Nat) (place : Cursor) (cs : List Char) :
    nextTag (place.moved n) cs = movedReading n (nextTag place cs) := by
  obtain ⟨closing, body, rfl, hslash⟩ := exists_closing cs
  rw [nextTag_eq hslash, nextTag_eq hslash]
  split_ifs <;> simp [Token.moved, Failure.moved]

instance : MovableLexicon Symbol where
  next_moved n c := by
    show next (c.moved n) = movedReading n (next c)
    simp only [next, Cursor.skipBlanks_moved, Cursor.rest_moved]
    split
    · rfl
    · split_ifs
      · exact nextTag_moved n c.skipBlanks _
      · rfl
      · simp [Token.moved]

/-! ## Places of tokens -/

theorem exists_advance_next (c : Cursor) : ∃ k, (next c).2 = c.skipBlanks.advance k := by
  simp only [next]
  split
  · exact ⟨0, by simp⟩
  · rename_i cs _
    split_ifs
    · obtain ⟨closing, body, rfl, hslash⟩ := exists_closing cs
      rw [nextTag_eq hslash]
      split_ifs <;> exact ⟨_, rfl⟩
    · exact ⟨0, by simp⟩
    · exact ⟨_, rfl⟩

theorem position_of_next {c c' : Cursor} {f : Failure} (h : next c = (.error f, c')) :
    f.position = c.skipBlanks.offset ∧ c.skipBlanks.rest ≠ [] := by
  simp only [next] at h
  split at h
  · simp at h
  · rename_i d cs hrest
    refine ⟨?_, by simp [hrest]⟩
    split_ifs at h
    · obtain ⟨closing, body, rfl, hslash⟩ := exists_closing cs
      rw [nextTag_eq hslash] at h
      split_ifs at h <;> simp at h <;> simp [← h.1]
    · obtain ⟨rfl, -⟩ := by simpa using h
      rfl
    · simp at h

instance : LocatedLexicon Symbol where
  exists_advance := exists_advance_next
  position_eq h := (next_eq_ok h).1
  isEof_iff {c c' t} h := by
    obtain ⟨-, ⟨hs, hrest⟩ | ⟨spelling, behind, rest, hrest, -, hspelled, -⟩⟩ := next_eq_ok h
    · simp [isEof_iff.mpr hs, hrest]
    · have hne : t.symbol ≠ .eof := by
        intro hs
        simpa [hs, Symbol.IsPlain] using hspelled.isPlain
      simp [isEof_eq_false hne, hrest, hspelled.ne_nil]
  pointsAt {c c' f} h := by
    obtain ⟨hposition, hne⟩ := position_of_next h
    rw [hposition]
    exact ⟨phase_of_next h, Cursor.pointsAt_here hne⟩

/-! ## Failures of the reader -/

theorem failsInPlace : reader.FailsInPlace where
  step {s t f} h := by
    cases refusal_of_step h with
    | ended hs ht => exact ⟨rfl, fun _ => isEof_iff.mpr ht⟩
    | unopened hs ht => exact t.hasFailure_of_ne (by simp)
    | mismatched hs ht hname => exact t.hasFailure_of_ne (by simp)
    | tooDeep hs ht hlevel => exact t.hasFailure_of_ne (by simp)
    | trailing hs => exact t.hasFailure_of_ne (by simp)
  decode {s t f} h := by
    obtain ⟨literal, -, -, rfl⟩ := malformed_of_step h
    exact t.hasFailure_of_ne (by simp)
  finish {s position f} h := by
    cases s with
    | root v => simp [reader, State.finish] at h
    | _ => exact (Except.error.inj h).symm

end Dialects.Markup
