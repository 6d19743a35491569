import Dialects.Proofs.Markup.Document
import Dialects.Proofs.Orthography

/-!
# How markup is spelled

A tag is spelled by a mark, whatever is behind it. A leaf is spelled by a plain text, with nothing but
blanks in front of the next bracket.
-/

namespace Dialects.Markup

open Dialects.Text

/-! ## Marks -/

theorem closeMark_eq (name : String) : closeMark name = mark true name.toList := by
  simp [closeMark, mark]

theorem openMark_eq (name : String) : openMark name = mark false name.toList := by
  simp [openMark, mark]

theorem openMark_eq_of_slash {name : String} {cs : List Char} (h : name.toList = '/' :: cs) :
    openMark name = mark true cs := by
  simp [openMark, mark, h]

theorem next_openMark {name : String} (hname : IsPlain name.toList)
    (hslash : name.toList.head? ≠ some '/') (offset : Nat) (rest : List Char) :
    next ⟨offset, openMark name ++ rest⟩ =
      (.ok ⟨.openTag name, offset⟩, ⟨offset + byteLength (openMark name), rest⟩) := by
  obtain ⟨hne, htrimmed, hbracket⟩ := hname
  rw [openMark_eq, next_mark hbracket false fun _ => hslash, trim_of_isTrimmed htrimmed,
    if_neg (by simpa using hne)]
  simp

theorem next_closeMark {name : String} (hname : IsPlain name.toList) (offset : Nat)
    (rest : List Char) : next ⟨offset, closeMark name ++ rest⟩ =
      (.ok ⟨.closeTag name, offset⟩, ⟨offset + byteLength (closeMark name), rest⟩) := by
  obtain ⟨hne, htrimmed, hbracket⟩ := hname
  rw [closeMark_eq, next_mark hbracket true (by simp), trim_of_isTrimmed htrimmed,
    if_neg (by simpa using hne)]
  simp

theorem Value.exists_write_tagged (layout : Layout) (depth : Nat) (name : String)
    (children : List Value) : ∃ (inner : Layout) (blanks : List Char), (∀ c ∈ blanks, isBlank c) ∧
      (tagged name children).write layout depth =
        openMark name ++ (writeAll inner (depth + 1) children ++ (blanks ++ closeMark name)) := by
  by_cases hline : staysOnLine children
  · exact ⟨.compact, [], by simp, by simp [write, hline]⟩
  · exact ⟨layout, layout.lineBreak depth, fun c hc => isBlank_of_mem_lineBreak hc,
      by simp [write, hline]⟩

/-! ## Leaves -/

/-- What a leaf in front of a text takes of it. -/
def leafPart (cs : List Char) : List Char := cs.takeWhile (!isBracket ·)

/-- Whether a text has only blanks up to its first bracket. -/
def IsClosed (cs : List Char) : Prop := ∀ c ∈ leafPart cs, isBlank c

theorem next_leafPart {text : List Char} (h : IsPlain text) (offset : Nat) (rest : List Char) :
    next ⟨offset, text ++ rest⟩ =
      (.ok ⟨Symbol.ofText (trim (text ++ leafPart rest)), offset⟩,
        ⟨offset + byteLength (text ++ leafPart rest), rest.dropWhile (!isBracket ·)⟩) := by
  obtain ⟨hne, htrimmed, hbracket⟩ := h
  obtain ⟨d, cs, rfl⟩ := List.exists_cons_of_ne_nil hne
  have hall : ∀ c ∈ d :: (cs ++ leafPart rest), isBracket c = false := by
    rw [← List.cons_append]
    exact List.forall_mem_append.mpr ⟨hbracket, fun c hc => not_isBracket_of_mem_takeWhile hc⟩
  have hnext := next_leaf (stops_cons.mp htrimmed.1) hall (stops_dropWhile _ rest) offset
  rwa [List.append_assoc, leafPart, List.takeWhile_append_dropWhile] at hnext

theorem not_isBracket_of_isBlank {c : Char} (h : isBlank c) : (!isBracket c) = true := by
  cases hc : isBracket c with
  | false => rfl
  | true => simp [isBlank_of_isBracket hc] at h

theorem isClosed_append {cs : List Char} (hcs : ∀ c ∈ cs, isBlank c) {rest : List Char} :
    IsClosed (cs ++ rest) ↔ IsClosed rest := by
  unfold IsClosed leafPart
  rw [List.takeWhile_append_of_pos fun c hc => not_isBracket_of_isBlank (hcs c hc),
    List.forall_mem_append]
  exact and_iff_right hcs

theorem isClosed_mark (closing : Bool) (name rest : List Char) :
    IsClosed (mark closing name ++ rest) := by
  simp [IsClosed, leafPart, mark, isBracket]

theorem isClosed_cons {c : Char} {cs : List Char} :
    IsClosed (c :: cs) ↔ isBracket c ∨ isBlank c ∧ IsClosed cs := by
  cases hc : isBracket c <;> simp [IsClosed, leafPart, hc]

theorem isClosed_nil : IsClosed [] := by simp [IsClosed, leafPart]

theorem exists_next_of_isClosed {text rest : List Char} (h : IsPlain text) (hrest : IsClosed rest)
    (offset : Nat) : ∃ c, next ⟨offset, text ++ rest⟩ = (.ok ⟨Symbol.ofText text, offset⟩, c) ∧
      c.skipBlanks = (⟨offset + byteLength text, rest⟩ : Cursor).skipBlanks := by
  have hnext := next_leafPart h offset rest
  have hskip := Cursor.skipBlanks_append_skipBlanks hrest (offset + byteLength text)
    (rest.dropWhile (!isBracket ·))
  rw [trim_append_blanks h.2.1 hrest] at hnext
  rw [leafPart, List.takeWhile_append_dropWhile, Nat.add_assoc, ← byteLength_append] at hskip
  exact ⟨_, hnext, hskip.symm⟩

theorem not_isClosed_append {text : List Char} (h : IsPlain text) (rest : List Char) :
    ¬IsClosed (text ++ rest) := by
  obtain ⟨hne, htrimmed, hbracket⟩ := h
  obtain ⟨d, cs, rfl⟩ := List.exists_cons_of_ne_nil hne
  have hmem : d ∈ leafPart (d :: cs ++ rest) := by
    simp [leafPart, hbracket d List.mem_cons_self]
  intro hclosed
  have hblank : isBlank d = false := stops_cons.mp htrimmed.1
  simp [hclosed d hmem] at hblank

theorem exists_not_blank_of_not_isClosed {cs : List Char} (h : ¬IsClosed cs) :
    ∃ blanks d ds, leafPart cs = blanks ++ d :: ds ∧ (∀ c ∈ blanks, isBlank c) ∧
      isBlank d = false := by
  have hne : (leafPart cs).dropWhile isBlank ≠ [] := by
    intro hnil
    exact h fun c hc => List.dropWhile_eq_nil_iff.mp hnil c hc
  obtain ⟨d, ds, hd⟩ := List.exists_cons_of_ne_nil hne
  have hstops := stops_dropWhile isBlank (leafPart cs)
  rw [hd] at hstops
  refine ⟨(leafPart cs).takeWhile isBlank, d, ds, ?_, ?_, stops_cons.mp hstops⟩
  · rw [← hd, List.takeWhile_append_dropWhile]
  · intro c hc
    exact List.mem_takeWhile_imp hc

/-! ## Spelling -/

instance : Orthography Symbol where
  Spells := SpelledAs
  EndsBefore s rest := s.isMark = false → IsClosed rest

theorem isTrimmed_mark (closing : Bool) (name : List Char) : IsTrimmed (mark closing name) := by
  refine ⟨by simp [mark, isBlank], ?_⟩
  rw [mark, List.reverse_cons, List.reverse_append, List.reverse_append, List.reverse_singleton]
  simp [isBlank]

theorem IsClosed.of_isPrefix {cs ds : List Char} (h : IsClosed ds) (hcs : cs <+: ds) :
    IsClosed cs := by
  obtain ⟨es, rfl⟩ := hcs
  induction cs with
  | nil => exact isClosed_nil
  | cons c cs ih =>
    rw [List.cons_append, isClosed_cons] at h
    exact isClosed_cons.mpr (h.imp_right (And.imp_right ih))

theorem IsClosed.of_blanksAdded {cs ds : List Char} (h : IsClosed cs) (hadded : BlanksAdded cs ds) :
    IsClosed ds := by
  induction hadded with
  | nil => exact h
  | keep c hadded ih => exact isClosed_cons.mpr ((isClosed_cons.mp h).imp_right (And.imp_right ih))
  | blank hb hadded ih => exact isClosed_cons.mpr (.inr ⟨hb, ih h⟩)

theorem isClosed_of_stops {rest : List Char} (h : Stops (!isBracket ·) rest) : IsClosed rest := by
  cases rest with
  | nil => exact isClosed_nil
  | cons d rest => exact isClosed_cons.mpr (.inl (by simpa using h))

instance : LawfulOrthography Symbol where
  isTrimmed h := by
    refine ⟨h.ne_nil, ?_⟩
    cases h with
    | tag closing hraw hslash hname => exact isTrimmed_mark closing _
    | leaf h => exact h.2.1
  isEof_eq_false position h := isEof_eq_false (by rintro rfl; exact h.isPlain)
  endsBefore_of_isPrefix h hcs hs := (h hs).of_isPrefix hcs
  endsBefore_of_blanksAdded h hadded hs := (h hs).of_blanksAdded hadded
  next_spelled := by
    rintro cs rest s offset hspelled hends
    cases hspelled with
    | tag closing hraw hslash hname =>
      refine ⟨_, ?_, rfl⟩
      rw [show Lexicon.next _ = next _ from rfl, next_mark hraw closing hslash,
        if_neg (by simpa using hname), Symbol.ofMark]
    | leaf hplain =>
      exact exists_next_of_isClosed hplain (hends (isMark_ofText _)) offset
  rest_eq_nil h heof := by
    obtain ⟨-, ⟨-, hrest⟩ | ⟨_, _, _, -, -, hspelled, -⟩⟩ := next_eq_ok h
    · exact hrest
    · have hplain := hspelled.isPlain
      rw [isEof_iff.mp heof] at hplain
      exact hplain.elim
  exists_spelled {c c' c'' t u} h heof _ := by
    obtain ⟨hposition, ⟨hs, -⟩ | ⟨spelling, behind, rest, hrest, rfl, hspelled, hbehind, hstops⟩⟩ :=
      next_eq_ok h
    · simp [Token.isEof, Token.kind, Lexicon.kind, Lexicon.eof, hs] at heof
    · exact ⟨hposition, spelling, behind, rest, hrest, rfl, hbehind, hspelled, fun hmark =>
        (isClosed_append hbehind).mpr (isClosed_of_stops (hstops hmark))⟩

end Dialects.Markup
