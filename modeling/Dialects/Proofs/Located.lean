import Dialects.Proofs.Moved

/-!
# Places in a text

A token stands at the first character behind blanks, and what cannot be made out fails at such a
character too. A reader that fails at a token or at the end thus fails at a place of the text.
-/

namespace Dialects

open Dialects.Text

/-! ## Cursors in a text -/

namespace Text.Cursor

variable {c : Cursor} {source : String} {position : Nat}

/-- Whether a cursor stands in a text, behind as many bytes as its offset says. -/
def StandsIn (source : String) (c : Cursor) : Prop :=
  ∃ before, source.toList = before ++ c.rest ∧ byteLength before = c.offset

theorem standsIn_start (source : String) : (start source).StandsIn source := ⟨[], rfl, rfl⟩

theorem StandsIn.advance (h : c.StandsIn source) (k : Nat) : (c.advance k).StandsIn source := by
  obtain ⟨before, hsource, hoffset⟩ := h
  refine ⟨before ++ c.rest.take k, ?_, by simp [Cursor.advance, hoffset]⟩
  rw [hsource, rest_advance, List.append_assoc, List.take_append_drop]

theorem StandsIn.skipBlanks (h : c.StandsIn source) : c.skipBlanks.StandsIn source := h.advance _

theorem StandsIn.dropBytes?_eq (h : c.StandsIn source) :
    dropBytes? c.offset source.toList = some c.rest := by
  obtain ⟨before, hsource, hoffset⟩ := h
  rw [hsource, ← hoffset, dropBytes?_byteLength]

/-- Whether a character that is not a blank stands at a position, behind a cursor. -/
def PointsAt (c : Cursor) (position : Nat) : Prop :=
  ∃ before d after, c.rest = before ++ d :: after ∧ isBlank d = false ∧
    position = c.offset + byteLength before

theorem pointsAt_of_getElem? {k : Nat} {d : Char} (h : c.rest[k]? = some d) (hd : isBlank d = false) :
    c.PointsAt (c.advance k).offset := by
  obtain ⟨hk, rfl⟩ := List.getElem?_eq_some_iff.mp h
  exact ⟨c.rest.take k, c.rest[k], c.rest.drop (k + 1), by simp, hd, rfl⟩

theorem PointsAt.of_advance {k : Nat} (h : (c.advance k).PointsAt position) : c.PointsAt position := by
  obtain ⟨before, d, after, hrest, hd, rfl⟩ := h
  refine ⟨c.rest.take k ++ before, d, after, ?_, hd, by simp [advance, Nat.add_assoc]⟩
  rw [List.append_assoc, ← hrest, rest_advance, List.take_append_drop]

theorem PointsAt.of_skipBlanks (h : c.skipBlanks.PointsAt position) : c.PointsAt position :=
  h.of_advance

theorem pointsAt_here (h : c.skipBlanks.rest ≠ []) : c.skipBlanks.PointsAt c.skipBlanks.offset := by
  have hstops := c.stops_skipBlanks
  obtain ⟨d, after, hrest⟩ := List.exists_cons_of_ne_nil h
  rw [hrest] at hstops
  exact ⟨[], d, after, hrest, stops_cons.mp hstops, rfl⟩

theorem offset_of_rest_skipBlanks (h : c.skipBlanks.rest = []) :
    c.skipBlanks.offset = c.offset + byteLength c.rest := by
  have hlength := c.offset_add_byteLength_advance (c.rest.takeWhile isBlank).length
  rw [← skipBlanks, h] at hlength
  simpa using hlength

end Text.Cursor

/-! ## Scans -/

/-- A reading gets to a character behind the blanks. A token stands where the blanks end, the end where
nothing is left, and a failure at a character that is not a blank. -/
class LocatedLexicon (σ : Type) {κ : outParam Type} [Lexicon σ κ] [DecidableEq κ] : Prop
    extends LawfulLexicon σ where
  exists_advance (c : Cursor) : ∃ k, (Lexicon.next (σ := σ) c).2 = c.skipBlanks.advance k
  position_eq {c c' : Cursor} {t : Token σ} :
    Lexicon.next c = (.ok t, c') → t.position = c.skipBlanks.offset
  isEof_iff {c c' : Cursor} {t : Token σ} :
    Lexicon.next c = (.ok t, c') → (t.isEof ↔ c.skipBlanks.rest = [])
  pointsAt {c c' : Cursor} {f : Failure} : Lexicon.next (σ := σ) c = (.error f, c') →
    f.cause.phase = .lexical ∧ c.skipBlanks.PointsAt f.position

namespace Scan

variable {σ : Type} {c : Cursor}

/-- Whether the tokens of a scan stand at characters behind a cursor, and it ends at the end of the text
or fails at a character. -/
structure LiesBehind (c : Cursor) (s : Scan σ) : Prop where
  tokens : ∀ t ∈ s.tokens, c.PointsAt t.position
  eof {position : Nat} : s.ending = .eof position → position = c.offset + byteLength c.rest
  failed {f : Failure} : s.ending = .failed f → f.cause.phase = .lexical ∧ c.PointsAt f.position

theorem LiesBehind.of_advance {s : Scan σ} {k : Nat} (h : s.LiesBehind (c.advance k)) :
    s.LiesBehind c where
  tokens t ht := (h.tokens t ht).of_advance
  eof hs := by rw [h.eof hs, Cursor.offset_add_byteLength_advance]
  failed hs := ⟨(h.failed hs).1, (h.failed hs).2.of_advance⟩

theorem LiesBehind.cons {s : Scan σ} {t : Token σ} (h : s.LiesBehind c) (ht : c.PointsAt t.position) :
    (s.cons t).LiesBehind c where
  tokens := List.forall_mem_cons.mpr ⟨ht, h.tokens⟩
  eof := h.eof
  failed := h.failed

theorem liesBehind_ofCursor {κ : Type} [Lexicon σ κ] [DecidableEq κ] [LocatedLexicon σ] (c : Cursor) :
    (ofCursor c : Scan σ).LiesBehind c := by
  induction hn : c.rest.length using Nat.strong_induction_on generalizing c with
  | _ n ih =>
    obtain ⟨k, hk⟩ := LocatedLexicon.exists_advance (σ := σ) c
    rw [ofCursor_eq]
    cases hnext : Lexicon.next (σ := σ) c with
    | mk result c' =>
      obtain rfl : c' = c.skipBlanks.advance k := by rw [← hk, hnext]
      cases result with
      | error f =>
        obtain ⟨hphase, hpoints⟩ := LocatedLexicon.pointsAt hnext
        exact ⟨by simp, by simp, by simpa using ⟨hphase, hpoints.of_skipBlanks⟩⟩
      | ok t =>
        have hposition := LocatedLexicon.position_eq hnext
        have hend := LocatedLexicon.isEof_iff hnext
        cases heof : t.isEof with
        | true =>
          have hlast := hposition.trans (Cursor.offset_of_rest_skipBlanks (hend.mp heof))
          exact ⟨by simp [heof], by simp [heof, hlast], by simp [heof]⟩
        | false =>
          have hlt := LawfulLexicon.length_lt hnext heof
          have hpoints : c.PointsAt t.position := by
            rw [hposition]
            exact (Cursor.pointsAt_here fun hnil => by simp [hend.mpr hnil] at heof).of_skipBlanks
          have htail : (ofCursor (c.skipBlanks.advance k) : Scan σ).LiesBehind c :=
            (ih _ (hn ▸ hlt) _ rfl).of_advance.of_advance
          simpa [heof] using htail.cons hpoints

theorem exists_next_of_failed {κ : Type} [Lexicon σ κ] [DecidableEq κ] [LocatedLexicon σ]
    {source : String} {c : Cursor} {f : Failure} (hc : c.StandsIn source)
    (h : (ofCursor c : Scan σ).ending = .failed f) :
    ∃ c₁ c₂, c₁.StandsIn source ∧ Lexicon.next (σ := σ) c₁ = (.error f, c₂) := by
  induction hn : c.rest.length using Nat.strong_induction_on generalizing c with
  | _ n ih =>
    obtain ⟨k, hk⟩ := LocatedLexicon.exists_advance (σ := σ) c
    rw [ofCursor_eq] at h
    cases hnext : Lexicon.next (σ := σ) c with
    | mk result c' =>
      obtain rfl : c' = c.skipBlanks.advance k := by rw [← hk, hnext]
      rw [hnext] at h
      cases result with
      | error g =>
        obtain rfl : g = f := by simpa using h
        exact ⟨c, _, hc, hnext⟩
      | ok t =>
        cases heof : t.isEof with
        | true => simp [heof] at h
        | false =>
          have hlt := LawfulLexicon.length_lt hnext heof
          exact ih _ (hn ▸ hlt) (hc.skipBlanks.advance k) (by simpa [heof, cons] using h) rfl

end Scan

end Dialects
