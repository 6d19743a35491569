import Dialects.Proofs.Scan

/-!
# Spelled texts

A dialect says how its symbols are spelled and in front of which texts a spelled symbol ends. A text
is scanned to its end exactly if it is made of symbols that are spelled so, with blanks between them.
-/

namespace Dialects

open Dialects.Text

/-! ## Added blanks -/

/-- Whether a text comes from another by adding blanks. -/
inductive BlanksAdded : List Char → List Char → Prop
  | nil : BlanksAdded [] []
  | keep {cs ds : List Char} (c : Char) (h : BlanksAdded cs ds) : BlanksAdded (c :: cs) (c :: ds)
  | blank {cs ds : List Char} {b : Char} (hb : isBlank b) (h : BlanksAdded cs ds) :
    BlanksAdded cs (b :: ds)

namespace BlanksAdded

variable {cs ds : List Char}

theorem prepend (h : BlanksAdded cs ds) (kept : List Char) :
    BlanksAdded (kept ++ cs) (kept ++ ds) := by
  induction kept with
  | nil => exact h
  | cons c kept ih => exact .keep c ih

theorem prependBlanks (h : BlanksAdded cs ds) {blanks : List Char} (hb : ∀ c ∈ blanks, isBlank c) :
    BlanksAdded cs (blanks ++ ds) := by
  induction blanks with
  | nil => exact h
  | cons b blanks ih => exact .blank (hb b (by simp)) (ih fun c hc => hb c (by simp [hc]))

theorem appendBlanks (cs : List Char) {blanks : List Char} (hb : ∀ c ∈ blanks, isBlank c) :
    BlanksAdded cs (cs ++ blanks) := by
  have h := (BlanksAdded.nil.prependBlanks hb).prepend cs
  simpa using h

theorem stops {p : Char → Bool} (h : BlanksAdded cs ds) (hp : ∀ b, isBlank b → p b = false)
    (hcs : Stops p cs) : Stops p ds := by
  cases h with
  | nil => exact hcs
  | keep c h => exact hcs
  | blank hb h => exact stops_cons.mpr (hp _ hb)

end BlanksAdded

/-! ## Orthographies -/

/-- How the symbols of a dialect, but for the end, stand in a text. -/
class Orthography (σ : Type) where
  Spells : List Char → σ → Prop
  /-- Whether a symbol that stands in front of a text does not go on with it. -/
  EndsBefore : σ → List Char → Prop

open Orthography (Spells EndsBefore)

variable {σ κ : Type} [Lexicon σ κ] [DecidableEq κ] [Orthography σ]

/-- What is spelled is read, and what is read, unless no token comes behind it, is spelled. -/
class LawfulOrthography (σ : Type) {κ : outParam Type} [Lexicon σ κ] [DecidableEq κ]
    [Orthography σ] : Prop extends LawfulLexicon σ where
  isTrimmed {cs : List Char} {s : σ} : Spells cs s → cs ≠ [] ∧ IsTrimmed cs
  isEof_eq_false {cs : List Char} {s : σ} (position : Nat) :
    Spells cs s → (⟨s, position⟩ : Token σ).isEof = false
  endsBefore_of_isPrefix {s : σ} {cs ds : List Char} :
    EndsBefore s ds → cs <+: ds → EndsBefore s cs
  endsBefore_of_blanksAdded {s : σ} {cs ds : List Char} :
    EndsBefore s cs → BlanksAdded cs ds → EndsBefore s ds
  next_spelled {cs rest : List Char} {s : σ} (offset : Nat) : Spells cs s → EndsBefore s rest →
    ∃ c, Lexicon.next ⟨offset, cs ++ rest⟩ = (.ok ⟨s, offset⟩, c) ∧
      c.skipBlanks = (⟨offset + byteLength cs, rest⟩ : Cursor).skipBlanks
  rest_eq_nil {c c' : Cursor} {t : Token σ} :
    Lexicon.next c = (.ok t, c') → t.isEof → c.skipBlanks.rest = []
  exists_spelled {c c' c'' : Cursor} {t u : Token σ} : Lexicon.next c = (.ok t, c') →
    t.isEof = false → Lexicon.next c' = (.ok u, c'') → t.position = c.skipBlanks.offset ∧
      ∃ spelling behind rest, c.skipBlanks.rest = spelling ++ (behind ++ rest) ∧
        c' = ⟨c.skipBlanks.offset + byteLength (spelling ++ behind), rest⟩ ∧
        (∀ b ∈ behind, isBlank b) ∧ Spells spelling t.symbol ∧ EndsBefore t.symbol (behind ++ rest)

variable [LawfulOrthography σ]

/-! ## Blanks in a scan -/

theorem rest_skipBlanks_eq_nil_iff {c : Cursor} :
    c.skipBlanks.rest = [] ↔ ∀ d ∈ c.rest, isBlank d := by
  rw [Cursor.rest_skipBlanks, List.dropWhile_eq_nil_iff]

theorem Scan.ofCursor_append_blanks {blanks : List Char} (hb : ∀ c ∈ blanks, isBlank c)
    (offset : Nat) (cs : List Char) : (Scan.ofCursor ⟨offset, blanks ++ cs⟩ : Scan σ) =
      Scan.ofCursor ⟨offset + byteLength blanks, cs⟩ := by
  rw [← ofCursor_skipBlanks, Cursor.skipBlanks_append_skipBlanks hb, ofCursor_skipBlanks]

theorem Scan.ofCursor_blanks {blanks : List Char} (hb : ∀ c ∈ blanks, isBlank c) (offset : Nat) :
    (Scan.ofCursor ⟨offset, blanks⟩ : Scan σ) = ⟨[], .eof (offset + byteLength blanks)⟩ := by
  have h := ofCursor_append_blanks (σ := σ) hb offset []
  rw [List.append_nil] at h
  rw [h]
  rfl

theorem Scan.exists_next_of_eof {c : Cursor} {ts : List (Token σ)} {position : Nat}
    (h : (Scan.ofCursor c : Scan σ) = ⟨ts, .eof position⟩) :
    ∃ t c', Lexicon.next c = (.ok t, c') ∧
      (t.isEof ∧ ts = [] ∨ t.isEof = false ∧ ∃ us, ts = t :: us ∧
        (Scan.ofCursor c' : Scan σ) = ⟨us, .eof position⟩) := by
  rw [ofCursor_eq] at h
  cases hnext : Lexicon.next (σ := σ) c with
  | mk result c' =>
    rw [hnext] at h
    cases result with
    | error f => simp at h
    | ok t =>
      refine ⟨t, c', rfl, ?_⟩
      cases heof : t.isEof with
      | true =>
        obtain ⟨rfl, -⟩ := by simpa [heof] using h
        exact .inl ⟨rfl, rfl⟩
      | false =>
        obtain ⟨rfl, hending⟩ := by simpa [heof, cons] using h
        exact .inr ⟨rfl, _, rfl, by rw [← hending]⟩

/-! ## Spelled pieces -/

namespace Piece

/-- Whether the pieces in front of a text are spelled, each up to where it ends. -/
def AllSpelled : List (Piece σ) → List Char → Prop
  | [], _ => True
  | p :: ps, rest =>
    (∀ c ∈ p.blanks, isBlank c) ∧ Spells p.spelling p.symbol ∧
      EndsBefore p.symbol (text ps ++ rest) ∧ AllSpelled ps rest

theorem reads_of_spells {p : Piece σ} {rest : List Char} (hblanks : ∀ c ∈ p.blanks, isBlank c)
    (hp : Spells p.spelling p.symbol) (hrest : EndsBefore p.symbol rest) : p.Reads rest := by
  intro offset
  obtain ⟨c, hnext, hskip⟩ :=
    LawfulOrthography.next_spelled (offset + byteLength p.blanks) hp hrest
  refine ⟨c, ?_, LawfulOrthography.isEof_eq_false offset hp, ?_⟩
  · rw [← LawfulLexicon.next_skipBlanks, chars, List.append_assoc,
      Cursor.skipBlanks_append_skipBlanks hblanks, LawfulLexicon.next_skipBlanks, hnext]
  · rw [hskip, chars, byteLength_append, Nat.add_assoc]

theorem allRead_of_allSpelled {ps : List (Piece σ)} {rest : List Char} (h : AllSpelled ps rest) :
    AllRead ps rest := by
  induction ps with
  | nil => trivial
  | cons p ps ih =>
    obtain ⟨hblanks, hp, hrest, hps⟩ := h
    exact ⟨reads_of_spells hblanks hp hrest, ih hps⟩

theorem exists_allSpelled {c : Cursor} {ts : List (Token σ)} {position : Nat}
    (h : (Scan.ofCursor c : Scan σ) = ⟨ts, .eof position⟩) :
    ∃ (ps : List (Piece σ)) (blanks : List Char), c.rest = text ps ++ blanks ∧
      AllSpelled ps blanks ∧ ∀ b ∈ blanks, isBlank b := by
  induction hn : c.rest.length using Nat.strong_induction_on generalizing c ts with
  | _ n ih =>
    obtain ⟨t, c', hnext, ⟨heof, -⟩ | ⟨heof, us, -, hscan⟩⟩ := Scan.exists_next_of_eof h
    · have hblanks :=
        rest_skipBlanks_eq_nil_iff.mp (LawfulOrthography.rest_eq_nil (σ := σ) hnext heof)
      exact ⟨[], c.rest, rfl, trivial, hblanks⟩
    · obtain ⟨u, c'', hnext', -⟩ := Scan.exists_next_of_eof hscan
      obtain ⟨-, spelling, behind, rest, hrest, rfl, hbehind, hspells, hends⟩ :=
        LawfulOrthography.exists_spelled hnext heof hnext'
      have hne := List.length_pos_of_ne_nil (LawfulOrthography.isTrimmed hspells).1
      have hle := c.length_rest_skipBlanks_le
      have hlength := congrArg List.length hrest
      simp only [List.length_append] at hlength
      -- The blanks behind the token are left to the piece behind it.
      have hscan' : (Scan.ofCursor ⟨c.skipBlanks.offset + byteLength spelling, behind ++ rest⟩ :
          Scan σ) = ⟨us, .eof position⟩ := by
        rw [Scan.ofCursor_append_blanks hbehind, Nat.add_assoc, ← byteLength_append, hscan]
      obtain ⟨ps, blanks, hps, hspelled, hblanks⟩ :=
        ih (behind ++ rest).length (by rw [List.length_append]; omega) hscan' rfl
      refine ⟨⟨c.rest.takeWhile isBlank, t.symbol, spelling⟩ :: ps, blanks, ?_,
        ⟨fun b hb => List.mem_takeWhile_imp hb, hspells, hps ▸ hends, hspelled⟩, hblanks⟩
      rw [text_cons, chars, List.append_assoc, List.append_assoc, ← hps, ← hrest,
        Cursor.rest_skipBlanks, List.takeWhile_append_dropWhile]

end Piece

end Dialects
