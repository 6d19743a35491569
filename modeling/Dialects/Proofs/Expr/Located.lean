import Dialects.Proofs.Expr.Failing
import Dialects.Proofs.Expr.Scan
import Dialects.Proofs.Located

/-!
# Places of tokens of arithmetic

Where a token stands and where its reading fails, and that an expression fails at a token.
-/

namespace Dialects.Expr

open Dialects.Text

/-! ## Places of tokens -/

theorem failure_of_next {c c' : Cursor} {f : Failure} (h : next c = (.error f, c')) :
    ∃ d, f = ⟨.unrecognisedCharacter d, c.skipBlanks.offset⟩ ∧ c.skipBlanks.rest ≠ [] := by
  simp only [next] at h
  split at h
  · simp at h
  · rename_i d cs hrest
    split at h
    · simp at h
    · split_ifs at h
      · obtain ⟨rfl, -⟩ := by simpa using h
        exact ⟨d, rfl, by simp [hrest]⟩
      · simp at h

theorem exists_advance_next (c : Cursor) : ∃ k, (next c).2 = c.skipBlanks.advance k := by
  simp only [next]
  split
  · exact ⟨0, by simp⟩
  · split
    · exact ⟨1, rfl⟩
    · split_ifs
      · exact ⟨0, by simp⟩
      · exact ⟨_, rfl⟩

instance : LocatedLexicon Symbol where
  exists_advance := exists_advance_next
  position_eq h := (next_eq_ok h).1
  isEof_iff {c c' t} h := by
    obtain ⟨-, ⟨ht, hrest⟩ | ⟨d, rest, kind, hrest, hkind, ht, -⟩ | ⟨hnumber, ht, -⟩⟩ := next_eq_ok h
    · simp [isEof_iff, ht, hrest, Symbol.eof]
    · simp [isEof_iff, ht, hrest, (ne_of_kindOfChar? hkind).2]
    · have hne : c.skipBlanks.rest ≠ [] := by
        intro hnil
        simp [hnil, number_nil] at hnumber
      simp [isEof_iff, ht, hne]
  pointsAt {c c' f} h := by
    obtain ⟨d, rfl, hne⟩ := failure_of_next h
    exact ⟨rfl, Cursor.pointsAt_here hne⟩

/-! ## Failures of expressions -/

section

variable {levels power position : Nat} {t : Token Symbol} {ss : List Symbol} {f : Failure}

theorem Fails.hasFailure (h : Fails levels power t ss f) : t.HasFailure f := by
  cases h with
  | tooDeep h => exact t.hasFailure_of_ne (by simp)
  | malformed h hn ht hread => exact t.hasFailure_of_ne (by simp)
  | unexpected h hn ht => exact t.hasFailure_unexpected
  | unclosed h hopening hinner ht hclose => exact t.hasFailure_insteadOf .closeParen

theorem Fails.cause_of_isEof (h : Fails levels power t ss f) (ht : t.isEof) :
    f.cause ∈ [.unexpectedEof, .tooDeep nestingLimit] := by
  cases h with
  | tooDeep h => simp
  | malformed h hn hnumber hread => simp [isEof_iff, hnumber] at ht
  | unexpected h hn hopening => simp [Token.unexpected, ht]
  | unclosed h hopening hinner hbinding hclose => simp [Token.insteadOf, ht]

theorem hasFailure_of_evaluateTokens {tokens : List (Token Symbol)}
    (h : evaluateTokens (tokens ++ [⟨.eof, position⟩]) = .error f) :
    (∃ t ∈ tokens, t.HasFailure f) ∨
      f.position = position ∧ f.cause ∈ [.unexpectedEof, .tooDeep nestingLimit] := by
  have hmem {ts rest : List (Token Symbol)} {t : Token Symbol}
      (hsplit : (Stream.ofTokens (tokens ++ [⟨.eof, position⟩])).upcoming = ts ++ t :: rest) :
      t ∈ tokens ∨ t = ⟨.eof, position⟩ := by
    have ht : t ∈ tokens ++ [⟨.eof, position⟩] := by
      rw [← upcoming_ofTokens, hsplit]
      simp
    simpa using ht
  -- It fails inside an expression, or for a token behind a whole one, and that is no end.
  obtain ⟨ts, t, rest, hsplit, hfails⟩ | ⟨ts, t, rest, tree, hsplit, -, heof, -, rfl⟩ :=
    hasFailed_or_trailing h
  · obtain ht | rfl := hmem hsplit
    · exact .inl ⟨t, ht, hfails.hasFailure⟩
    · exact .inr ⟨hfails.hasFailure.position, hfails.cause_of_isEof (isEof_iff.mpr rfl)⟩
  · obtain ht | rfl := hmem hsplit
    · exact .inl ⟨t, ht, t.hasFailure_of_ne (by simp)⟩
    · exact absurd rfl heof

end

end Dialects.Expr
