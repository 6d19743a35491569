import Dialects.Proofs.Text
import Dialects.Scan

/-!
# Scans of known texts

A text put together from pieces, each a token as it is spelled behind some blanks, is scanned into
the tokens of the pieces.
-/

namespace Dialects

open Dialects.Text (Cursor byteLength isBlank)

/-! ## Scanning token by token -/

/-- Reading skips blanks first, and a token takes at least one character. -/
class LawfulLexicon (σ : Type) {κ : outParam Type} [Lexicon σ κ] [DecidableEq κ] : Prop where
  next_skipBlanks (c : Cursor) : Lexicon.next (σ := σ) c.skipBlanks = Lexicon.next c
  next_end (offset : Nat) :
    Lexicon.next ⟨offset, []⟩ = (.ok ⟨(Lexicon.eof : σ), offset⟩, ⟨offset, []⟩)
  length_lt {c c' : Cursor} {t : Token σ} :
    Lexicon.next c = (.ok t, c') → t.isEof = false → c'.rest.length < c.rest.length

variable {σ κ : Type} [Lexicon σ κ] [DecidableEq κ]

@[simp] theorem isEof_eof (position : Nat) : (⟨Lexicon.eof, position⟩ : Token σ).isEof := by
  simp [Token.isEof, Token.kind]

namespace Scan

variable [LawfulLexicon σ]

theorem upTo_eq_upTo {n m : Nat} {c : Cursor} (hn : c.rest.length ≤ n) (hm : c.rest.length ≤ m) :
    (upTo n c : Scan σ) = upTo m c := by
  induction n generalizing m c with
  | zero =>
    obtain ⟨offset, rest⟩ := c
    obtain rfl : rest = [] := List.eq_nil_of_length_eq_zero (by simpa using hn)
    cases m <;> simp [upTo, LawfulLexicon.next_end]
  | succ n ih =>
    cases m with
    | zero =>
      obtain ⟨offset, rest⟩ := c
      obtain rfl : rest = [] := List.eq_nil_of_length_eq_zero (by simpa using hm)
      simp [upTo, LawfulLexicon.next_end]
    | succ m =>
      simp only [upTo]
      split
      · rfl
      · rename_i t c' hnext
        split
        · rfl
        · rename_i heof
          -- A token takes a character, so a smaller bound is enough behind it.
          have hlt := LawfulLexicon.length_lt hnext (by simpa using heof)
          rw [ih (m := m) (by omega) (by omega)]

theorem ofCursor_eq (c : Cursor) : (ofCursor c : Scan σ) =
    match Lexicon.next c with
    | (.error f, _) => ⟨[], .failed f⟩
    | (.ok t, c') => if t.isEof then ⟨[], .eof t.position⟩ else (ofCursor c').cons t := by
  rw [ofCursor, upTo_eq_upTo le_rfl (Nat.le_succ _)]
  cases hnext : Lexicon.next (σ := σ) c with
  | mk result c' =>
    cases result with
    | error f => simp only [upTo, hnext]
    | ok t =>
      cases heof : t.isEof with
      | true => simp only [upTo, hnext, heof, if_true]
      | false =>
        have hlt := LawfulLexicon.length_lt hnext heof
        simp only [upTo, hnext, heof, Bool.false_eq_true, if_false]
        rw [ofCursor, upTo_eq_upTo (by omega) le_rfl]

theorem ofCursor_of_next {c c' : Cursor} {t : Token σ}
    (h : Lexicon.next c = (.ok t, c')) (ht : t.isEof = false) :
    (ofCursor c : Scan σ) = (ofCursor c').cons t := by
  rw [ofCursor_eq, h]
  simp [ht]

theorem forall_mem_tokens {p : Token σ → Prop}
    (h : ∀ c c' t, Lexicon.next c = (.ok t, c') → t.isEof = false → p t) (c : Cursor) :
    ∀ t ∈ (ofCursor c : Scan σ).tokens, p t := by
  induction hn : c.rest.length using Nat.strong_induction_on generalizing c with
  | _ n ih =>
    rw [ofCursor_eq]
    cases hnext : Lexicon.next (σ := σ) c with
    | mk result c' =>
      cases result with
      | error f => simp
      | ok t =>
        cases heof : t.isEof with
        | true => simp [heof]
        | false =>
          have hlt := LawfulLexicon.length_lt hnext heof
          simp only [heof, Bool.false_eq_true, if_false, cons]
          exact List.forall_mem_cons.mpr ⟨h c c' t hnext heof, ih _ (hn ▸ hlt) c' rfl⟩

theorem nextTokens_eq (c : Cursor) :
    ∃ last, nextTokens ((ofCursor c : Scan σ).tokens.length + 1) c =
        (ofCursor c : Scan σ).tokens.map .ok ++ [last] ∧
      match (ofCursor c : Scan σ).ending with
      | .failed f => last = .error f
      | .eof position => ∃ t, last = .ok t ∧ t.isEof ∧ t.position = position := by
  induction hn : c.rest.length using Nat.strong_induction_on generalizing c with
  | _ n ih =>
    rw [ofCursor_eq]
    cases hnext : Lexicon.next (σ := σ) c with
    | mk result c' =>
      cases result with
      | error f => exact ⟨.error f, by simp [nextTokens, hnext], rfl⟩
      | ok t =>
        cases heof : t.isEof with
        | true => exact ⟨.ok t, by simp [nextTokens, hnext, heof], by simp [heof]⟩
        | false =>
          have hlt := LawfulLexicon.length_lt hnext heof
          obtain ⟨last, htokens, hlast⟩ := ih _ (hn ▸ hlt) c' rfl
          refine ⟨last, ?_, by simpa [heof, cons] using hlast⟩
          rw [nextTokens, hnext]
          simp only [heof, cons]
          simpa using htokens

theorem ofCursor_skipBlanks (c : Cursor) : (ofCursor c.skipBlanks : Scan σ) = ofCursor c := by
  rw [ofCursor_eq, ofCursor_eq, LawfulLexicon.next_skipBlanks]

end Scan

theorem tokenize_eq_ok_iff {source : String} {tokens : List (Token σ)} :
    tokenize source = .ok tokens ↔ ∃ ts position,
      (Scan.ofSource source : Scan σ) = ⟨ts, .eof position⟩ ∧
      tokens = ts ++ [⟨Lexicon.eof, position⟩] := by
  rw [tokenize, Scan.toExcept]
  obtain ⟨ts, ending⟩ := (Scan.ofSource source : Scan σ)
  cases ending <;> simp [eq_comm]

theorem ending_of_tokenize_eq_error {source : String} {f : Failure}
    (h : (tokenize source : Except Failure (List (Token σ))) = .error f) :
    (Scan.ofSource source : Scan σ).ending = .failed f := by
  rw [tokenize, Scan.toExcept] at h
  split at h
  · simp at h
  · rename_i g hending
    rw [hending, Except.error.inj h]

omit [DecidableEq κ] in
theorem take_nextTokens {k n : Nat} (h : k ≤ n) (c : Cursor) :
    (nextTokens n c : List (Except Failure (Token σ))).take k = nextTokens k c := by
  induction k generalizing n c with
  | zero => rfl
  | succ k ih =>
    obtain ⟨n, rfl⟩ := Nat.exists_eq_succ_of_ne_zero (by omega : n ≠ 0)
    simp only [nextTokens, List.take_succ_cons]
    rw [ih (by omega)]

omit [DecidableEq κ] in
theorem exists_next_of_mem {n : Nat} {c : Cursor} {result : Except Failure (Token σ)}
    (h : result ∈ nextTokens n c) : ∃ c c', Lexicon.next c = (result, c') := by
  induction n generalizing c with
  | zero => simp [nextTokens] at h
  | succ n ih =>
    rw [nextTokens] at h
    obtain rfl | h := List.mem_cons.mp h
    · exact ⟨c, _, rfl⟩
    · exact ih h

theorem exists_cursor_of_nextTokens [LawfulLexicon σ] {ts : List (Token σ)} {c : Cursor}
    (hts : ∀ t ∈ ts, t.isEof = false) (h : nextTokens ts.length c = ts.map .ok) :
    ∃ c', (∀ n, nextTokens (ts.length + n) c = ts.map .ok ++ nextTokens n c') ∧
      (Scan.ofCursor c : Scan σ) =
        ⟨ts ++ (Scan.ofCursor c' : Scan σ).tokens, (Scan.ofCursor c' : Scan σ).ending⟩ := by
  induction ts generalizing c with
  | nil => exact ⟨c, by simp, rfl⟩
  | cons t ts ih =>
    cases hnext : Lexicon.next (σ := σ) c with
    | mk result behind =>
      simp only [List.length_cons, nextTokens, hnext, List.map_cons, List.cons.injEq] at h
      obtain ⟨rfl, h⟩ := h
      obtain ⟨c', hc', hscan⟩ := ih (fun u hu => hts u (List.mem_cons_of_mem _ hu)) h
      refine ⟨c', fun n => ?_, ?_⟩
      · rw [List.length_cons, Nat.add_right_comm, nextTokens, hnext]
        simp [hc']
      · rw [Scan.ofCursor_eq, hnext]
        simp [hts t, Scan.cons, hscan]

/-! ## Pieces of a text -/

/-- A token as it stands in a text: the blanks before it, and its spelling. -/
structure Piece (σ : Type) where
  blanks : List Char
  symbol : σ
  spelling : List Char

namespace Piece

def chars (p : Piece σ) : List Char := p.blanks ++ p.spelling

def text (ps : List (Piece σ)) : List Char := ps.flatMap chars

def tokens : Nat → List (Piece σ) → List (Token σ)
  | _, [] => []
  | offset, p :: ps =>
    ⟨p.symbol, offset + byteLength p.blanks⟩ :: tokens (offset + byteLength p.chars) ps

/-- Whether the token of a piece is read where the piece stands in front of a text. The blanks
behind it may be taken along. -/
def Reads (p : Piece σ) (rest : List Char) : Prop :=
  ∀ offset, ∃ c : Cursor,
    Lexicon.next ⟨offset, p.chars ++ rest⟩ =
      (.ok ⟨p.symbol, offset + byteLength p.blanks⟩, c) ∧
    (⟨p.symbol, offset⟩ : Token σ).isEof = false ∧
    c.skipBlanks = (⟨offset + byteLength p.chars, rest⟩ : Cursor).skipBlanks

def AllRead : List (Piece σ) → List Char → Prop
  | [], _ => True
  | p :: ps, rest => p.Reads (text ps ++ rest) ∧ AllRead ps rest

@[simp] theorem text_nil : text ([] : List (Piece σ)) = [] := rfl

@[simp] theorem text_cons (p : Piece σ) (ps : List (Piece σ)) :
    text (p :: ps) = p.chars ++ text ps := rfl

@[simp] theorem text_append (ps qs : List (Piece σ)) : text (ps ++ qs) = text ps ++ text qs := by
  simp [text]

theorem map_symbol_tokens (offset : Nat) (ps : List (Piece σ)) :
    (tokens offset ps).map Token.symbol = ps.map Piece.symbol := by
  induction ps generalizing offset with
  | nil => rfl
  | cons p ps ih => simp [tokens, ih]

theorem tokens_append (offset : Nat) (ps qs : List (Piece σ)) : tokens offset (ps ++ qs) =
    tokens offset ps ++ tokens (offset + byteLength (text ps)) qs := by
  induction ps generalizing offset with
  | nil => rfl
  | cons p ps ih => simp [tokens, ih, Nat.add_assoc]

theorem allRead_append (ps qs : List (Piece σ)) (rest : List Char) :
    AllRead (ps ++ qs) rest ↔ AllRead ps (text qs ++ rest) ∧ AllRead qs rest := by
  induction ps with
  | nil => simp [AllRead]
  | cons p ps ih => simp [AllRead, ih, and_assoc]

variable [LawfulLexicon σ]

theorem ofCursor_text {ps : List (Piece σ)} {rest : List Char} (h : AllRead ps rest)
    (offset : Nat) : (Scan.ofCursor ⟨offset, text ps ++ rest⟩ : Scan σ) =
      ⟨tokens offset ps ++
        (Scan.ofCursor ⟨offset + byteLength (text ps), rest⟩ : Scan σ).tokens,
      (Scan.ofCursor ⟨offset + byteLength (text ps), rest⟩ : Scan σ).ending⟩ := by
  induction ps generalizing offset with
  | nil => simp [tokens]
  | cons p ps ih =>
    obtain ⟨hp, hps⟩ := h
    obtain ⟨c, hnext, heof, hskip⟩ := hp offset
    rw [text_cons, List.append_assoc, Scan.ofCursor_eq, hnext]
    have heof' : (⟨p.symbol, offset + byteLength p.blanks⟩ : Token σ).isEof = false := heof
    simp only [heof', Bool.false_eq_true, if_false]
    rw [← Scan.ofCursor_skipBlanks c, hskip, Scan.ofCursor_skipBlanks, ih hps]
    simp [Scan.cons, tokens, Nat.add_assoc]

theorem ofSource_text {ps : List (Piece σ)} (h : AllRead ps []) :
    (Scan.ofSource (String.ofList (text ps)) : Scan σ) =
      ⟨tokens 0 ps, .eof (byteLength (text ps))⟩ := by
  have hscan := ofCursor_text h 0
  rw [List.append_nil] at hscan
  have hend : (Scan.ofCursor ⟨byteLength (text ps), []⟩ : Scan σ) =
      ⟨[], .eof (byteLength (text ps))⟩ := rfl
  rw [Scan.ofSource, Cursor.start, String.toList_ofList, hscan, Nat.zero_add, hend,
    List.append_nil]

end Piece

end Dialects
