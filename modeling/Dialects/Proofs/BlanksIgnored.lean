import Dialects.Proofs.Orthography
import Dialects.Proofs.Expr.Agree
import Dialects.Proofs.Expr.Orthography
import Dialects.Proofs.Agree
import Dialects.Proofs.Json.Orthography
import Dialects.Proofs.Markup.Orthography

/-!
# Blanks between tokens

Blanks between the tokens of a text change nothing but positions, in any dialect.
-/

namespace Dialects

open Dialects.Text
open Orthography (Spells EndsBefore)

variable {σ κ : Type} [Lexicon σ κ] [DecidableEq κ]

/-! ## Spaced out texts

Blanks may be added in front of any token and behind any. The scan gives the same symbols then.
-/

variable (σ) in
/-- Whether a text comes from what is behind a cursor by adding blanks in front of the first character
of tokens and behind their last one. A token is what its reading takes, but for the blanks around. -/
inductive SpacedOut : Cursor → List Char → Prop
  | eof {c c' : Cursor} {t : Token σ} {added : List Char} (h : Lexicon.next c = (.ok t, c'))
    (ht : t.isEof) (hadded : ∀ b ∈ added, isBlank b) : SpacedOut c (c.rest ++ added)
  | token {c c' : Cursor} {t : Token σ} {before spelling behind added added' ds : List Char}
    (h : Lexicon.next c = (.ok t, c')) (ht : t.isEof = false)
    (hrest : c.rest = before ++ (spelling ++ (behind ++ c'.rest)))
    (hbefore : ∀ b ∈ before, isBlank b) (hspelling : IsTrimmed spelling)
    (hbehind : ∀ b ∈ behind, isBlank b) (hadded : ∀ b ∈ added, isBlank b)
    (hadded' : ∀ b ∈ added', isBlank b) (hds : SpacedOut c' ds) :
    SpacedOut c (before ++ (added ++ (spelling ++ (added' ++ (behind ++ ds)))))

theorem SpacedOut.blanksAdded {c : Cursor} {ds : List Char} (h : SpacedOut σ c ds) :
    BlanksAdded c.rest ds := by
  induction h with
  | eof h ht hadded => exact .appendBlanks _ hadded
  | @token c c' t before spelling behind added added' ds h ht hrest _ _ _ hadded hadded' hds ih =>
    rw [hrest]
    have hbehind : BlanksAdded (behind ++ c'.rest) (added' ++ (behind ++ ds)) :=
      (ih.prepend behind).prependBlanks hadded'
    exact ((hbehind.prepend spelling).prependBlanks hadded).prepend before

variable [Orthography σ] [LawfulOrthography σ]

theorem spells_of_next {c c' c'' : Cursor} {t u : Token σ} {before spelling behind : List Char}
    (h : Lexicon.next c = (.ok t, c')) (ht : t.isEof = false) (hnext : Lexicon.next c' = (.ok u, c''))
    (hrest : c.rest = before ++ (spelling ++ (behind ++ c'.rest)))
    (hbefore : ∀ b ∈ before, isBlank b) (hspelling : IsTrimmed spelling)
    (hbehind : ∀ b ∈ behind, isBlank b) :
    Spells spelling t.symbol ∧ EndsBefore t.symbol (behind ++ c'.rest) := by
  obtain ⟨-, spelling', behind', rest, hsplit, rfl, hbehind', hspells, hends⟩ :=
    LawfulOrthography.exists_spelled h ht hnext
  obtain ⟨hne', htrimmed⟩ := LawfulOrthography.isTrimmed hspells
  have hskip : c.skipBlanks.rest = (spelling ++ (behind ++ rest)).dropWhile isBlank := by
    rw [Cursor.rest_skipBlanks, hrest, List.dropWhile_append_of_pos hbefore]
  have hne : spelling ≠ [] := by
    rintro rfl
    have hlength := (List.dropWhile_sublist (p := isBlank) (l := rest)).length_le
    have hpos := List.length_pos_of_ne_nil hne'
    rw [List.nil_append, List.dropWhile_append_of_pos hbehind, hsplit] at hskip
    rw [← hskip, List.length_append, List.length_append] at hlength
    omega
  have hstart : (spelling ++ (behind ++ rest)).dropWhile isBlank = spelling ++ (behind ++ rest) := by
    obtain ⟨d, ds, rfl⟩ := List.exists_cons_of_ne_nil hne
    simp [stops_cons.mp hspelling.1]
  rw [hskip, hstart, ← List.append_assoc, ← List.append_assoc] at hsplit
  have hsame := List.append_cancel_right hsplit
  -- Both are what trimming leaves of the same text.
  obtain rfl : spelling = spelling' := by
    rw [← trim_append_blanks hspelling hbehind, hsame, trim_append_blanks htrimmed hbehind']
  obtain rfl := List.append_cancel_left hsame
  exact ⟨hspells, hends⟩

theorem Scan.exists_eq_of_spacedOut {c : Cursor} {ds : List Char} (h : SpacedOut σ c ds)
    {ts : List (Token σ)} {position : Nat} (hscan : (ofCursor c : Scan σ) = ⟨ts, .eof position⟩)
    (offset : Nat) : ∃ us position', (ofCursor ⟨offset, ds⟩ : Scan σ) = ⟨us, .eof position'⟩ ∧
      us.map Token.symbol = ts.map Token.symbol := by
  induction h generalizing ts offset with
  | @eof c c' t added h ht hadded =>
    have hblanks := rest_skipBlanks_eq_nil_iff.mp (LawfulOrthography.rest_eq_nil h ht)
    rw [ofCursor_eq, h] at hscan
    obtain ⟨rfl, -⟩ := by simpa [ht] using hscan
    exact ⟨[], _, ofCursor_blanks (List.forall_mem_append.mpr ⟨hblanks, hadded⟩) offset, rfl⟩
  | @token c c' t before spelling behind added added' ds h ht hrest hbefore hspelling hbehind hadded
      hadded' hds ih =>
    have heq := ofCursor_eq (σ := σ) c
    simp only [h, ht, Bool.false_eq_true, if_false, hscan, cons, Scan.mk.injEq] at heq
    obtain ⟨rfl, hending⟩ := heq
    have hscan' : (ofCursor c' : Scan σ) = ⟨(ofCursor c' : Scan σ).tokens, .eof position⟩ := by
      rw [hending]
    obtain ⟨u, c'', hnext, -⟩ := exists_next_of_eof hscan'
    obtain ⟨hspells, hends⟩ := spells_of_next h ht hnext hrest hbefore hspelling hbehind
    -- Where a token may end, it may also end in front of more blanks.
    have hends' := LawfulOrthography.endsBefore_of_blanksAdded hends
      ((hds.blanksAdded.prepend behind).prependBlanks hadded')
    obtain ⟨c₁, hnext₁, hskip₁⟩ := LawfulOrthography.next_spelled
      (offset + byteLength before + byteLength added) hspells hends'
    obtain ⟨us, position', hus, hsymbols⟩ := ih hscan' _
    refine ⟨⟨t.symbol, offset + byteLength before + byteLength added⟩ :: us, position', ?_,
      by rw [List.map_cons, List.map_cons, hsymbols]⟩
    have hcons : (ofCursor c₁ : Scan σ) = ⟨us, .eof position'⟩ := by
      rw [← ofCursor_skipBlanks, hskip₁, ofCursor_skipBlanks, ofCursor_append_blanks hadded',
        ofCursor_append_blanks hbehind, hus]
    rw [ofCursor_append_blanks hbefore, ofCursor_append_blanks hadded, ofCursor_eq, hnext₁]
    simp only [LawfulOrthography.isEof_eq_false _ hspells, Bool.false_eq_true, if_false, hcons, cons]

/-! ## What blanks change -/

/-- Whether blanks that are added between tokens, where a text can be scanned, change neither its
symbols nor what is read of it, nor the cause of a failure to read it. -/
def IgnoresBlanks (σ : Type) {κ : outParam Type} [Lexicon σ κ] [DecidableEq κ] {α : Type}
    (read : String → Except Failure α) : Prop :=
  ∀ (source spaced : String) (tokens : List (Token σ)), tokenize source = .ok tokens →
    SpacedOut σ (Cursor.start source) spaced.toList →
    (∃ tokens' : List (Token σ), tokenize spaced = .ok tokens' ∧
      tokens'.map Token.symbol = tokens.map Token.symbol) ∧
    (read spaced).mapError Failure.cause = (read source).mapError Failure.cause

theorem ignoresBlanks_of_agree {α : Type} {read : String → Except Failure α}
    (hread : ∀ (source spaced : String) (ts us : List (Token σ)) (position position' : Nat),
      (Scan.ofSource source : Scan σ) = ⟨ts, .eof position⟩ →
      (Scan.ofSource spaced : Scan σ) = ⟨us, .eof position'⟩ →
      us.map Token.symbol = ts.map Token.symbol → Agree Eq (read spaced) (read source)) :
    IgnoresBlanks σ read := by
  intro source spaced tokens htokens hspaced
  obtain ⟨ts, position, hscan, rfl⟩ := tokenize_eq_ok_iff.mp htokens
  obtain ⟨us, position', hscan', hsymbols⟩ := Scan.exists_eq_of_spacedOut hspaced hscan 0
  refine ⟨⟨_, tokenize_eq_ok_iff.mpr ⟨us, position', hscan', rfl⟩, by simp [hsymbols]⟩, ?_⟩
  exact (hread source spaced ts us position position' hscan hscan' hsymbols).mapError_eq

theorem Reader.IgnoresPositions.ignoresBlanks {τ α : Type} {r : Reader σ τ α}
    (hr : r.IgnoresPositions) : IgnoresBlanks σ fun source => r.read (Scan.ofSource source) := by
  refine ignoresBlanks_of_agree fun source spaced ts us position position' hscan hscan' hsymbols => ?_
  rw [hscan, hscan']
  exact hr.run hsymbols position' position (.ok rfl)

/-- Added blanks are ignored in all three dialects. -/
theorem ignoresBlanks_of_dialects :
    IgnoresBlanks Json.Symbol Json.parse ∧ IgnoresBlanks Markup.Symbol Markup.parse ∧
      IgnoresBlanks Expr.Symbol Expr.evaluate := by
  refine ⟨Json.ignoresPositions.ignoresBlanks, Markup.ignoresPositions.ignoresBlanks,
    ignoresBlanks_of_agree fun source spaced ts us position position' hscan hscan' hsymbols => ?_⟩
  have htokens := tokenize_eq_ok_iff.mpr ⟨ts, position, hscan, rfl⟩
  have htokens' := tokenize_eq_ok_iff.mpr ⟨us, position', hscan', rfl⟩
  rw [Expr.evaluate, Expr.evaluate, htokens, htokens']
  exact Expr.agree_evaluateTokens (by simp [hsymbols])

/-- A leaf ends behind its last word, in front of the blanks that were there and those that are
added. -/
theorem parse_of_spaced_leaf :
    (Markup.parse "<a> x y\t </a>").mapError Failure.cause =
      (Markup.parse "<a>x y </a>").mapError Failure.cause := by
  have hend : SpacedOut Markup.Symbol ⟨11, []⟩ ([] ++ []) := .eof rfl rfl (by simp)
  have hclose : SpacedOut Markup.Symbol ⟨7, "</a>".toList⟩
      ([] ++ ([] ++ ("</a>".toList ++ ([] ++ ([] ++ []))))) :=
    .token rfl rfl rfl (by simp) (by simp [IsTrimmed, isBlank]) (by simp) (by simp) (by simp) hend
  have hleaf : SpacedOut Markup.Symbol ⟨3, "x y </a>".toList⟩
      ([] ++ ([' '] ++ ("x y".toList ++ (['\t'] ++ ([' '] ++ "</a>".toList))))) :=
    .token rfl rfl rfl (by simp) (by simp [IsTrimmed, isBlank]) (by simp [isBlank])
      (by simp [isBlank]) (by simp [isBlank]) hclose
  have hopen : SpacedOut Markup.Symbol (Cursor.start "<a>x y </a>")
      ([] ++ ([] ++ ("<a>".toList ++ ([] ++ ([] ++ " x y\t </a>".toList))))) :=
    .token rfl rfl rfl (by simp) (by simp [IsTrimmed, isBlank]) (by simp) (by simp) (by simp) hleaf
  exact (ignoresBlanks_of_dialects.2.1 _ "<a> x y\t </a>" _ rfl hopen).2

end Dialects
