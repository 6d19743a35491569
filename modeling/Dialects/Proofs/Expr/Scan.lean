import Dialects.Expr.Scan
import Dialects.Proofs.Double.Readable
import Dialects.Proofs.Scan

/-!
# Tokens of arithmetic

A token is the end, one character, or a number. A number has a digit and so stands for a double,
unless it is a point alone.
-/

namespace Dialects.Expr

open Dialects.Text

/-! ## Reading a token -/

theorem ne_of_kindOfChar? {d : Char} {kind : Kind} (h : Symbol.kindOfChar? d = some kind) :
    kind ≠ .number ∧ kind ≠ .eof := by
  unfold Symbol.kindOfChar? at h
  split_ifs at h <;> simp at h <;> simp [← h]

theorem next_eq_ok {c c' : Cursor} {t : Token Symbol} (h : next c = (.ok t, c')) :
    t.position = c.skipBlanks.offset ∧
      (t.symbol = .eof ∧ c.skipBlanks.rest = [] ∨
        (∃ d rest kind, c.skipBlanks.rest = d :: rest ∧ Symbol.kindOfChar? d = some kind ∧
          t.symbol = ⟨kind, d.toString⟩ ∧ c' = c.skipBlanks.advance 1) ∨
        number c.skipBlanks.rest ≠ [] ∧
          t.symbol = ⟨.number, String.ofList (number c.skipBlanks.rest)⟩ ∧
          c' = c.skipBlanks.advance (number c.skipBlanks.rest).length) := by
  simp only [next] at h
  split at h
  · rename_i hrest
    obtain ⟨rfl, -⟩ := by simpa using h
    exact ⟨rfl, .inl ⟨rfl, hrest⟩⟩
  · rename_i d rest hrest
    split at h
    · rename_i kind hkind
      obtain ⟨rfl, rfl⟩ := by simpa using h
      exact ⟨rfl, .inr (.inl ⟨d, rest, kind, hrest, hkind, rfl, rfl⟩)⟩
    · split_ifs at h with hempty
      · simp at h
      · obtain ⟨rfl, rfl⟩ := by simpa using h
        exact ⟨rfl, .inr (.inr ⟨by simpa using hempty, rfl, rfl⟩)⟩

theorem number_nil : number [] = [] := rfl

theorem isEof_iff {t : Token Symbol} : t.isEof ↔ t.symbol.kind = .eof := beq_iff_eq

instance : LawfulLexicon Symbol where
  next_skipBlanks c := by simp [Lexicon.next, next]
  next_end offset := rfl
  length_lt {c c' t} h heof := by
    obtain ⟨-, ⟨ht, -⟩ | ⟨d, rest, kind, hrest, -, -, rfl⟩ | ⟨hnumber, -, rfl⟩⟩ := next_eq_ok h
    · have hkind : t.symbol.kind = .eof := by rw [ht]; rfl
      simp [isEof_iff.mpr hkind] at heof
    · exact (Cursor.length_rest_advance_lt (by simp [hrest]) Nat.one_pos).trans_le
        (Cursor.length_rest_skipBlanks_le c)
    · have hne : c.skipBlanks.rest ≠ [] := by
        intro hnil
        simp [hnil, number_nil] at hnumber
      exact (Cursor.length_rest_advance_lt hne (List.length_pos_iff.mpr hnumber)).trans_le
        (Cursor.length_rest_skipBlanks_le c)

/-! ## Numbers -/

theorem exists_of_number (cs : List Char) : ∃ whole part, number cs = whole ++ part ∧
    (∀ c ∈ whole, c.isDigit) ∧
    (part = [] ∨ ∃ digits, (∀ c ∈ digits, c.isDigit) ∧ part = '.' :: digits) := by
  refine ⟨_, _, rfl, fun c hc => List.mem_takeWhile_imp hc, ?_⟩
  unfold fraction
  split
  · exact .inr ⟨_, fun c hc => List.mem_takeWhile_imp hc, rfl⟩
  · exact .inl rfl

theorem eq_point_of_read?_eq_none {cs : List Char} (hne : number cs ≠ [])
    (h : Double.read? (number cs) = none) : number cs = ['.'] := by
  obtain ⟨whole, part, hnumber, hwhole, hpart⟩ := exists_of_number cs
  rw [hnumber] at hne h ⊢
  by_contra hpoint
  -- Without a point there is a digit, and with one there is a digit on one of its sides.
  have hunsigned : IsUnsignedText (whole ++ (part ++ [])) := by
    obtain rfl | ⟨digits, hdigits, rfl⟩ := hpart
    · exact .whole ⟨by simpa using hne, hwhole⟩ (.inl rfl)
    · refine .point hwhole hdigits ?_ (.inl rfl)
      by_contra hnil
      obtain ⟨rfl, rfl⟩ : whole = [] ∧ digits = [] := by simpa using hnil
      exact hpoint rfl
  have hread := Double.isSome_read?_iff.mpr ⟨[], _, .inl rfl, .inr hunsigned, rfl⟩
  simp [h] at hread

theorem eq_point_of_next {c c' : Cursor} {t : Token Symbol} (h : next c = (.ok t, c'))
    (ht : t.symbol.kind = .number) (hread : Double.read? t.symbol.lexeme.toList = none) :
    t.symbol = ⟨.number, "."⟩ := by
  obtain ⟨-, ⟨hs, -⟩ | ⟨d, rest, kind, -, hkind, hs, -⟩ | ⟨hne, hs, -⟩⟩ := next_eq_ok h
  · simp [hs, Symbol.eof] at ht
  · rw [hs] at ht
    exact absurd ht (ne_of_kindOfChar? hkind).1
  · rw [hs, String.toList_ofList] at hread
    rw [hs, eq_point_of_read?_eq_none hne hread]

end Dialects.Expr
