import Dialects.Proofs.Expr.Scan
import Dialects.Proofs.Orthography

/-!
# How arithmetic is spelled

A number is spelled by digits with at most one point, and ends in front of a character that it could
not go on with. All other symbols are single characters.
-/

namespace Dialects.Expr

open Dialects.Text

/-! ## Numbers -/

/-- Whether some characters are a whole number as it is scanned. -/
def IsNumber (cs : List Char) : Prop := cs ≠ [] ∧ number cs = cs

/-- Whether a number does not go on with what is behind it. -/
def NumberEnds (cs rest : List Char) : Prop :=
  Stops Char.isDigit rest ∧ ('.' ∈ cs ∨ Stops (· == '.') rest)

theorem fraction_of_stops {rest : List Char} (h : Stops (· == '.') rest) : fraction rest = [] := by
  unfold fraction
  split
  · simp at h
  · rfl

theorem not_mem_of_isDigit {cs : List Char} (h : ∀ c ∈ cs, c.isDigit) : '.' ∉ cs := by
  intro hmem
  simpa [Char.isDigit] using h '.' hmem

theorem number_append {cs rest : List Char} (h : number cs = cs) (hrest : NumberEnds cs rest) :
    number (cs ++ rest) = cs := by
  obtain ⟨whole, part, hnumber, hwhole, hpart⟩ := exists_of_number cs
  rw [h] at hnumber
  subst hnumber
  obtain ⟨hstops, hpoint⟩ := hrest
  obtain rfl | ⟨digits, hdigits, rfl⟩ := hpart
  · rw [List.append_nil] at hpoint ⊢
    rw [number, takeWhile_append_of_stops hwhole hstops, dropWhile_append_of_stops hwhole hstops,
      fraction_of_stops (hpoint.resolve_left (not_mem_of_isDigit hwhole)), List.append_nil]
  · have hstop : Stops Char.isDigit ('.' :: (digits ++ rest)) := by simp [Char.isDigit]
    rw [List.append_assoc, List.cons_append, number, takeWhile_append_of_stops hwhole hstop,
      dropWhile_append_of_stops hwhole hstop, fraction, takeWhile_append_of_stops hdigits hstops]

theorem exists_rest_of_number (cs : List Char) :
    ∃ rest, cs = number cs ++ rest ∧ NumberEnds (number cs) rest := by
  have hsplit := List.takeWhile_append_dropWhile (p := Char.isDigit) (l := cs)
  have hstops := stops_dropWhile Char.isDigit cs
  cases hdrop : cs.dropWhile Char.isDigit with
  | nil =>
    rw [hdrop, List.append_nil] at hsplit
    refine ⟨[], ?_, by simp [NumberEnds]⟩
    rw [number, hdrop, hsplit, fraction_of_stops stops_nil, List.append_nil, List.append_nil]
  | cons d ds =>
    rw [hdrop] at hsplit hstops
    by_cases hd : d = '.'
    · subst hd
      refine ⟨ds.dropWhile Char.isDigit, ?_, stops_dropWhile _ _, .inl ?_⟩
      · rw [number, hdrop, fraction, List.append_assoc, List.cons_append,
          List.takeWhile_append_dropWhile, hsplit]
      · simp [number, hdrop, fraction]
    · have hfraction : fraction (d :: ds) = [] := fraction_of_stops (by simpa using hd)
      refine ⟨d :: ds, ?_, hstops, .inr (by simpa using hd)⟩
      rw [number, hdrop, hfraction, List.append_nil, hsplit]

theorem number_number (cs : List Char) : number (number cs) = number cs := by
  obtain ⟨whole, part, hnumber, hwhole, hpart⟩ := exists_of_number cs
  rw [hnumber]
  obtain rfl | ⟨digits, hdigits, rfl⟩ := hpart
  · have h := takeWhile_append_of_stops hwhole (stops_nil (p := Char.isDigit))
    have h' := dropWhile_append_of_stops hwhole (stops_nil (p := Char.isDigit))
    rw [number, h, h', fraction]
    simp
  · have hstop : Stops Char.isDigit ('.' :: digits) := by simp [Char.isDigit]
    rw [number, takeWhile_append_of_stops hwhole hstop, dropWhile_append_of_stops hwhole hstop,
      fraction, List.takeWhile_eq_self_iff.mpr hdigits]

theorem forall_mem_number {cs : List Char} (h : number cs = cs) :
    ∀ c ∈ cs, c.isDigit ∨ c = '.' := by
  obtain ⟨whole, part, hnumber, hwhole, hpart⟩ := exists_of_number cs
  rw [h] at hnumber
  rw [hnumber]
  intro c hc
  rcases List.mem_append.mp hc with hc | hc
  · exact .inl (hwhole c hc)
  · obtain rfl | ⟨digits, hdigits, rfl⟩ := hpart
    · simp at hc
    · exact (List.mem_cons.mp hc).symm.imp_left (hdigits c)

/-! ## Symbols -/

instance : Orthography Symbol where
  Spells cs s := (∃ d kind, Symbol.kindOfChar? d = some kind ∧ cs = [d] ∧ s = ⟨kind, d.toString⟩) ∨
    IsNumber cs ∧ s = ⟨.number, String.ofList cs⟩
  EndsBefore s rest := s.kind = .number → NumberEnds s.lexeme.toList rest

theorem isBlank_of_kindOfChar? {d : Char} {kind : Kind} (h : Symbol.kindOfChar? d = some kind) :
    isBlank d = false := by
  unfold Symbol.kindOfChar? at h
  split_ifs at h <;> simp_all [isBlank]

theorem isBlank_of_mem_number {cs : List Char} (h : number cs = cs) :
    ∀ c ∈ cs, isBlank c = false := by
  intro c hc
  obtain hdigit | rfl := forall_mem_number h c hc
  · exact isBlank_of_isDigit hdigit
  · rfl

theorem next_of_kindOfChar? {d : Char} {kind : Kind} (h : Symbol.kindOfChar? d = some kind)
    (offset : Nat) (rest : List Char) : next ⟨offset, d :: rest⟩ =
      (.ok ⟨⟨kind, d.toString⟩, offset⟩, ⟨offset + byteLength [d], rest⟩) := by
  have hskip : (⟨offset, d :: rest⟩ : Cursor).skipBlanks = ⟨offset, d :: rest⟩ :=
    Cursor.skipBlanks_of_stops (stops_cons.mpr (isBlank_of_kindOfChar? h))
  have hadvance := Cursor.advance_append offset [d] rest
  rw [List.singleton_append, List.length_singleton] at hadvance
  simp only [next, hskip, h, hadvance]

theorem next_of_isNumber {cs rest : List Char} (h : IsNumber cs) (hrest : NumberEnds cs rest)
    (offset : Nat) : next ⟨offset, cs ++ rest⟩ =
      (.ok ⟨⟨.number, String.ofList cs⟩, offset⟩, ⟨offset + byteLength cs, rest⟩) := by
  obtain ⟨hne, hnumber⟩ := h
  have happend := number_append hnumber hrest
  have hadvance := Cursor.advance_append offset cs rest
  obtain ⟨d, ds, rfl⟩ := List.exists_cons_of_ne_nil hne
  have hskip : (⟨offset, d :: (ds ++ rest)⟩ : Cursor).skipBlanks = ⟨offset, d :: (ds ++ rest)⟩ :=
    Cursor.skipBlanks_of_stops (stops_cons.mpr (isBlank_of_mem_number hnumber d (by simp)))
  have hkind : Symbol.kindOfChar? d = none := by
    obtain hdigit | rfl := forall_mem_number hnumber d (by simp)
    · simp only [Symbol.kindOfChar?, beq_iff_eq]
      split_ifs <;> simp_all [Char.isDigit]
    · rfl
  rw [List.cons_append] at happend hadvance ⊢
  simp only [next, hskip, hkind, happend, hadvance]
  simp

instance : LawfulOrthography Symbol where
  isTrimmed := by
    rintro cs s (⟨d, kind, hkind, rfl, rfl⟩ | ⟨⟨hne, hnumber⟩, rfl⟩)
    · exact ⟨by simp, isTrimmed_of_forall (by simpa using isBlank_of_kindOfChar? hkind)⟩
    · exact ⟨hne, isTrimmed_of_forall (isBlank_of_mem_number hnumber)⟩
  isEof_eq_false := by
    rintro cs s position (⟨d, kind, hkind, rfl, rfl⟩ | ⟨-, rfl⟩)
    · exact beq_eq_false_iff_ne.mpr (ne_of_kindOfChar? hkind).2
    · rfl
  endsBefore_of_isPrefix h hcs hs := by
    obtain ⟨hdigit, hpoint⟩ := h hs
    exact ⟨hdigit.prefix_mono hcs, hpoint.imp_right fun h => h.prefix_mono hcs⟩
  endsBefore_of_blanksAdded h hadded hs := by
    obtain ⟨hdigit, hpoint⟩ := h hs
    refine ⟨hadded.stops (fun b hb => ?_) hdigit, hpoint.imp_right (hadded.stops fun b hb => ?_)⟩
    · by_contra hne
      simp [isBlank_of_isDigit (by simpa using hne)] at hb
    · rw [beq_eq_false_iff_ne]
      rintro rfl
      simp [isBlank] at hb
  next_spelled := by
    rintro cs rest s offset (⟨d, kind, hkind, rfl, rfl⟩ | ⟨hnumber, rfl⟩) hends
    · exact ⟨_, next_of_kindOfChar? hkind offset rest, rfl⟩
    · exact ⟨_, next_of_isNumber hnumber (by simpa using hends rfl) offset, rfl⟩
  rest_eq_nil h heof := by
    rw [isEof_iff] at heof
    obtain ⟨-, ⟨-, hrest⟩ | ⟨d, rest, kind, -, hkind, hs, -⟩ | ⟨-, hs, -⟩⟩ := next_eq_ok h
    · exact hrest
    · rw [hs] at heof
      exact absurd heof (ne_of_kindOfChar? hkind).2
    · simp [hs] at heof
  exists_spelled {c c' c'' t u} h heof _ := by
    obtain ⟨hposition, ⟨ht, -⟩ | ⟨d, rest, kind, hrest, hkind, hs, rfl⟩ | ⟨hne, hs, rfl⟩⟩ :=
      next_eq_ok h
    · simp [Token.isEof, Token.kind, Lexicon.kind, Lexicon.eof, ht] at heof
    · refine ⟨hposition, [d], [], rest, hrest, ?_, by simp, .inl ⟨d, kind, hkind, rfl, hs⟩, ?_⟩
      · simp [Cursor.advance, hrest]
      · intro hnumber
        rw [hs] at hnumber
        exact absurd hnumber (ne_of_kindOfChar? hkind).1
    · obtain ⟨rest, hrest, hends⟩ := exists_rest_of_number c.skipBlanks.rest
      refine ⟨hposition, _, [], rest, hrest, ?_, by simp,
        .inr ⟨⟨hne, number_number _⟩, hs⟩, fun _ => ?_⟩
      · rw [List.append_nil]
        generalize number c.skipBlanks.rest = cs at hrest
        simp [Cursor.advance, hrest]
      · simpa [hs] using hends

end Dialects.Expr
