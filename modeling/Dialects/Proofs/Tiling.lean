import Dialects.Proofs.Cut
import Dialects.Proofs.Located

/-!
# Tiled texts

The tokens of a text that is scanned to its end stand one behind the other in it, with nothing but
blanks between them. Behind the last one, reading gives the end again and again.
-/

namespace Dialects

open Dialects.Text
open Orthography (Spells EndsBefore)

/-! ## Longest characters of a class -/

/-- Whether some characters in front of a text are the longest of a class that it starts with there. -/
def IsLongest (p : List Char → Prop) (cs rest : List Char) : Prop :=
  p cs ∧ ∀ ds, p ds → ds <+: cs ++ rest → ds.length ≤ cs.length

theorem isLongest_of_forall {p : List Char → Prop} {cs rest : List Char} (h : p cs)
    (hmore : ∀ more, p (cs ++ more) → more <+: rest → more = []) : IsLongest p cs rest := by
  refine ⟨h, fun ds hds hprefix => ?_⟩
  obtain hle | ⟨more, rfl⟩ := List.prefix_or_prefix_of_prefix hprefix (List.prefix_append cs rest)
  · exact hle.length_le
  · rw [hmore more hds ((List.prefix_append_right_inj cs).mp hprefix), List.append_nil]

variable {σ κ : Type} [Lexicon σ κ]

/-! ## Tiled texts -/

/-- Whether tokens stand one behind the other in a text that starts at an offset. Each covers some
characters in front of the rest of the text, and all others are blanks. The last is the end. -/
inductive Tiles (Covers : σ → List Char → List Char → Prop) :
    Nat → List Char → List (Token σ) → Prop
  | eof {offset : Nat} {blanks : List Char} (hblanks : ∀ b ∈ blanks, isBlank b) :
    Tiles Covers offset blanks [⟨Lexicon.eof, offset + byteLength blanks⟩]
  | token {offset : Nat} {blanks cs rest : List Char} {s : σ} {ts : List (Token σ)}
    (hblanks : ∀ b ∈ blanks, isBlank b) (h : Covers s cs rest)
    (hts : Tiles Covers (offset + byteLength (blanks ++ cs)) rest ts) :
    Tiles Covers offset (blanks ++ (cs ++ rest)) (⟨s, offset + byteLength blanks⟩ :: ts)

namespace Tiles

variable {Covers : σ → List Char → List Char → Prop} {offset : Nat} {cs : List Char}
  {ts : List (Token σ)}

theorem offset_le (h : Tiles Covers offset cs ts) : ∀ t ∈ ts, offset ≤ t.position := by
  induction h with
  | eof hblanks => simp
  | token hblanks hcovers hts ih =>
    refine List.forall_mem_cons.mpr ⟨Nat.le_add_right _ _, fun t ht => ?_⟩
    exact (Nat.le_add_right _ _).trans (ih t ht)

theorem pairwise_position (hne : ∀ s cs rest, Covers s cs rest → cs ≠ [])
    (h : Tiles Covers offset cs ts) : (ts.map Token.position).Pairwise (· < ·) := by
  induction h with
  | eof hblanks => simp
  | @token offset blanks cs rest s ts hblanks hcovers hts ih =>
    rw [List.map_cons, List.pairwise_cons]
    refine ⟨fun position hposition => ?_, ih⟩
    obtain ⟨t, ht, rfl⟩ := List.mem_map.mp hposition
    have hle := hts.offset_le t ht
    have hpos := byteLength_pos (hne s cs rest hcovers)
    rw [byteLength_append] at hle
    show offset + byteLength blanks < t.position
    omega

theorem exists_eq_concat (h : Tiles Covers offset cs ts) :
    ∃ us, ts = us ++ [⟨Lexicon.eof, offset + byteLength cs⟩] ∧
      ∀ t ∈ us, ∃ covered rest, Covers t.symbol covered rest := by
  induction h with
  | eof hblanks => exact ⟨[], rfl, by simp⟩
  | @token offset blanks cs rest s ts hblanks hcovers hts ih =>
    obtain ⟨us, rfl, hus⟩ := ih
    refine ⟨⟨s, offset + byteLength blanks⟩ :: us, ?_,
      List.forall_mem_cons.mpr ⟨⟨cs, rest, hcovers⟩, hus⟩⟩
    rw [List.cons_append, byteLength_append, byteLength_append, byteLength_append, Nat.add_assoc,
      Nat.add_assoc]

end Tiles

section

variable [DecidableEq κ]

/-! ## The end -/

section

variable [LocatedLexicon σ]

theorem nextTokens_of_blanks {c : Cursor} (h : c.skipBlanks.rest = []) (k : Nat) :
    (nextTokens k c : List (Except Failure (Token σ))) =
      List.replicate k (.ok ⟨Lexicon.eof, c.skipBlanks.offset⟩) := by
  induction k generalizing c with
  | zero => rfl
  | succ k ih =>
    have hend : c.skipBlanks = ⟨c.skipBlanks.offset, []⟩ := by rw [← h]
    have hnext := LawfulLexicon.next_skipBlanks (σ := σ) c
    rw [hend, LawfulLexicon.next_end] at hnext
    rw [nextTokens, ← hnext, List.replicate_succ]
    exact congrArg _ (ih rfl)

theorem position_of_tokenize {source : String} {ts : List (Token σ)} {position : Nat}
    (h : (Scan.ofSource source : Scan σ) = ⟨ts, .eof position⟩) :
    position = byteLength source.toList := by
  have hlies : (Scan.ofSource source : Scan σ).LiesBehind (Cursor.start source) :=
    Scan.liesBehind_ofCursor _
  rw [h] at hlies
  simpa [Cursor.start] using hlies.eof rfl

variable [Orthography σ] [LawfulOrthography σ]

theorem nextTokens_of_eof {c : Cursor} {ts : List (Token σ)} {position : Nat}
    (h : (Scan.ofCursor c : Scan σ) = ⟨ts, .eof position⟩) (k : Nat) :
    nextTokens (ts.length + k) c =
      ts.map .ok ++ List.replicate k (.ok ⟨Lexicon.eof, position⟩) := by
  induction ts generalizing c with
  | nil =>
    obtain ⟨t, c', hnext, ⟨heof, -⟩ | ⟨-, us, hts, -⟩⟩ := Scan.exists_next_of_eof h
    · have hposition : t.position = position := by
        rw [Scan.ofCursor_eq, hnext] at h
        simpa [heof] using h
      rw [List.length_nil, Nat.zero_add,
        nextTokens_of_blanks ((LocatedLexicon.isEof_iff hnext).mp heof), ← hposition,
        LocatedLexicon.position_eq hnext]
      rfl
    · simp at hts
  | cons t ts ih =>
    obtain ⟨u, c', hnext, ⟨-, hts⟩ | ⟨-, us, hts, hscan⟩⟩ := Scan.exists_next_of_eof h
    · simp at hts
    · obtain ⟨rfl, rfl⟩ := List.cons.inj hts
      rw [List.length_cons, Nat.add_right_comm, nextTokens, hnext, List.map_cons, List.cons_append]
      exact congrArg _ (ih hscan)

theorem nextTokens_of_tokenize {source : String} {tokens : List (Token σ)}
    (h : tokenize source = .ok tokens) (k : Nat) :
    nextTokens (tokens.length + k) (Cursor.start source) =
      tokens.map .ok ++ List.replicate k (.ok ⟨Lexicon.eof, byteLength source.toList⟩) := by
  obtain ⟨ts, position, hscan, rfl⟩ := tokenize_eq_ok_iff.mp h
  obtain rfl := position_of_tokenize hscan
  have hnext := nextTokens_of_eof hscan (k + 1)
  rw [List.length_append, List.length_singleton, Nat.add_assoc, Nat.add_comm 1 k, hnext,
    List.replicate_succ, List.map_append, List.append_assoc]
  rfl

end

/-! ## Pieces as tiles -/

variable [Orthography σ]

/-- Whether a text is at its end or goes on with a blank or a symbol. -/
def Continues (σ : Type) [Orthography σ] (rest : List Char) : Prop :=
  ∀ d ∈ rest.head?, isBlank d ∨ ∃ (ds : List Char) (s : σ), Spells (d :: ds) s

variable [LawfulOrthography σ]

include κ in
theorem Piece.continues {ps : List (Piece σ)} {blanks : List Char} (hps : AllSpelled ps blanks)
    (hblanks : ∀ b ∈ blanks, isBlank b) : Continues σ (text ps ++ blanks) := by
  intro d hd
  cases ps with
  | nil => exact .inl (hblanks d (List.mem_of_mem_head? hd))
  | cons p ps =>
    obtain ⟨hfront, hspells, -, -⟩ := hps
    rw [text_cons, chars] at hd
    cases hfrontEq : p.blanks with
    | nil =>
      obtain ⟨e, es, hspelling⟩ :=
        List.exists_cons_of_ne_nil (LawfulOrthography.isTrimmed (κ := κ) hspells).1
      obtain rfl : e = d := by simpa [hfrontEq, hspelling] using hd
      exact .inr ⟨es, p.symbol, hspelling ▸ hspells⟩
    | cons b bs =>
      obtain rfl : b = d := by simpa [hfrontEq] using hd
      exact .inl (hfront b (by simp [hfrontEq]))

variable {Covers : σ → List Char → List Char → Prop}
  (hcovers : ∀ s cs rest, Spells cs s → EndsBefore s rest → Continues σ rest → Covers s cs rest)

include κ hcovers

theorem Piece.tiles {ps : List (Piece σ)} {blanks : List Char} (hps : AllSpelled ps blanks)
    (hblanks : ∀ b ∈ blanks, isBlank b) (offset : Nat) :
    Tiles Covers offset (text ps ++ blanks)
      (tokens offset ps ++ [⟨Lexicon.eof, offset + byteLength (text ps ++ blanks)⟩]) := by
  induction ps generalizing offset with
  | nil => exact .eof hblanks
  | cons p ps ih =>
    obtain ⟨hfront, hspells, hends, hps⟩ := hps
    have htail := ih hps (offset + byteLength p.chars)
    have htile := Tiles.token hfront (hcovers _ _ _ hspells hends (Piece.continues hps hblanks)) htail
    simpa [tokens, chars, Nat.add_assoc] using htile

theorem tiles_of_spells [LocatedLexicon σ] {source : String} {tokens : List (Token σ)}
    (h : tokenize source = .ok tokens) : Tiles Covers 0 source.toList tokens := by
  obtain ⟨ts, position, hscan, rfl⟩ := tokenize_eq_ok_iff.mp h
  obtain rfl := position_of_tokenize hscan
  obtain ⟨ps, blanks, hsource, hps, hblanks, rfl⟩ := Scan.exists_pieces hscan
  have htiles := Piece.tiles hcovers hps hblanks 0
  rwa [← hsource, Nat.zero_add] at htiles

end

end Dialects
