import Dialects.Proofs.Double.ReadBack
import Dialects.Proofs.Expr.Evaluate
import Dialects.Proofs.Expr.Orthography
import Dialects.CommandLine.Run
import Dialects.Proofs.Json.Rewritten

/-!
# Reformatting twice

What was reformatted is not changed by reformatting it again. A value without a spelling, or a key
that stands twice, is lost the first time.
-/

namespace Dialects.Expr

open Dialects.Text

/-! ## Written values

The text of a finite double is an expression for it: a numeral, behind a minus sign if it is
negative.
-/

theorem isNumber_of_isNumeral {cs : List Char} (h : IsNumeral cs) : IsNumber cs := by
  obtain ⟨whole, part, ⟨hne, hwhole⟩, hpart, rfl⟩ := h
  refine ⟨by simp [hne], ?_⟩
  obtain rfl | ⟨digits, hdigits, rfl⟩ := hpart
  · have htake := takeWhile_append_of_stops hwhole (stops_nil (p := Char.isDigit))
    have hdrop := dropWhile_append_of_stops hwhole (stops_nil (p := Char.isDigit))
    rw [number, htake, hdrop, fraction_of_stops stops_nil]
  · have hpoint : Stops Char.isDigit ('.' :: digits) := by simp [Char.isDigit]
    rw [number, takeWhile_append_of_stops hwhole hpoint, dropWhile_append_of_stops hwhole hpoint,
      fraction, List.takeWhile_eq_self_iff.mpr hdigits.2]

/-! ## The pieces of a text -/

def dashPiece : Piece Symbol := ⟨[], ⟨.dash, "-"⟩, ['-']⟩

def numeralPiece (x : Double) : Piece Symbol :=
  ⟨[], ⟨.number, String.ofList x.shortest.text⟩, x.shortest.text⟩

def writtenPieces (x : Double) : List (Piece Symbol) :=
  if x.isNegative then [dashPiece, numeralPiece x] else [numeralPiece x]

def writtenTree (x : Double) : Tree :=
  let numeral := .number (String.ofList x.shortest.text)
  if x.isNegative then .signed true numeral else numeral

theorem text_writtenPieces {x : Double} (h : x.isFinite) : Piece.text (writtenPieces x) = x.text := by
  rw [Double.text_of_finite h, writtenPieces]
  split_ifs <;> simp [Piece.chars, dashPiece, numeralPiece]

theorem allSpelled_writtenPieces (x : Double) : Piece.AllSpelled (writtenPieces x) [] := by
  have hnumeral : Piece.AllSpelled [numeralPiece x] [] := by
    refine ⟨by simp [numeralPiece],
      .inr ⟨isNumber_of_isNumeral (Decimal.isNumeral_text x.shortest), rfl⟩, fun _ => ?_, trivial⟩
    simp [NumberEnds]
  rw [writtenPieces]
  split_ifs
  · exact ⟨by simp [dashPiece], .inl ⟨'-', .dash, rfl, rfl, rfl⟩, fun h => by simp [dashPiece] at h,
      hnumeral⟩
  · exact hnumeral

theorem derives_writtenTree (x : Double) :
    Derives .sum ((writtenPieces x).map Piece.symbol) (writtenTree x) := by
  have hnumber : Derives .unary [(numeralPiece x).symbol]
      (.number (String.ofList x.shortest.text)) := .number rfl
  rw [writtenPieces, writtenTree]
  split_ifs
  · exact (Derives.signed (.inr ⟨rfl, rfl⟩) hnumber).loosen (by decide)
  · exact hnumber.loosen (by decide)

theorem value?_writtenTree {x : Double} (h : x.isFinite) : (writtenTree x).value? = some x := by
  have hread : Double.read? x.shortest.text = some (.ofMagnitude false x.magnitude) := by
    rw [Double.read?_numeral (Decimal.isNumeral_text _), Double.readUnsigned?_shortest h]
  have hmagnitude := Double.ofMagnitude_magnitude x
  rw [writtenTree]
  split_ifs with hneg
  · rw [hneg] at hmagnitude
    simp [Tree.value?, hread, Double.neg_ofMagnitude (Double.magnitude_lt_signWeight x), hmagnitude]
  · rw [Bool.not_eq_true] at hneg
    rw [hneg] at hmagnitude
    simp [Tree.value?, hread, hmagnitude]

/-! ## Evaluation -/

/-- The written form of a finite double has that double as its value. -/
theorem evaluate_text {x : Double} (h : x.isFinite) : evaluate (String.ofList x.text) = .ok x := by
  have hread := Piece.allRead_of_allSpelled (allSpelled_writtenPieces x)
  have htokens : tokenize (String.ofList x.text) = .ok (Piece.tokens 0 (writtenPieces x) ++
      [(⟨.eof, byteLength (Piece.text (writtenPieces x))⟩ : Token Symbol)]) := by
    rw [tokenize, ← text_writtenPieces h, Piece.ofSource_text hread]
    rfl
  have hderives := derives_writtenTree x
  have hkind : ∀ t ∈ Piece.tokens 0 (writtenPieces x), t.symbol.kind ≠ .eof := by
    simpa [← Piece.map_symbol_tokens 0] using hderives.kind_ne_eof
  have hdepth : 1 + (writtenTree x).depth ≤ nestingLimit := by
    rw [writtenTree]
    split_ifs <;> simp [Tree.depth, nestingLimit]
  rw [evaluate_of_tokenize htokens]
  refine evaluateTokens_of_derives ?_ (value?_writtenTree h) hdepth
  rw [symbolsBeforeEnd_append hkind rfl, Piece.map_symbol_tokens]
  exact hderives

end Dialects.Expr

namespace Dialects.CommandLine

/-! ## Reformatted texts -/

theorem reformat_json_eq_ok {layout : Layout} {source t : String} :
    reformat .json layout source = .ok t ↔ ∃ v, Json.parse source = .ok v ∧ v.text layout = t := by
  rw [reformat]
  cases Json.parse source <;> simp [Except.map]

theorem reformat_expr_eq_ok {layout : Layout} {source t : String} :
    reformat .expr layout source = .ok t ↔
      ∃ x, Expr.evaluate source = .ok x ∧ String.ofList x.text = t := by
  rw [reformat]
  cases Expr.evaluate source <;> simp [Except.map]

/-- Reformatting JSON again in its layout gives the same text, and in any other the text that the
source gives in that. The value of an expression is its own value, if it is finite. -/
theorem reformat_reformat (source : String) :
    (∀ layout t, reformat .json layout source = .ok t → reformat .json layout t = .ok t ∧
      ∀ other, reformat .json other t = reformat .json other source) ∧
    ∀ layout t x, Expr.evaluate source = .ok x → x.isFinite →
      reformat .expr layout source = .ok t → ∀ other, reformat .expr other t = .ok t := by
  constructor
  · intro layout t ht
    obtain ⟨v, hv, rfl⟩ := reformat_json_eq_ok.mp ht
    have hagain (other : Layout) :
        reformat .json other (v.text layout) = .ok (v.text other) := by
      refine reformat_json_eq_ok.mpr ⟨v.finitePart, Json.parse_text_of_parse hv layout, ?_⟩
      rw [v.text_finitePart]
    refine ⟨hagain layout, fun other => ?_⟩
    rw [hagain, reformat_json_eq_ok.mpr ⟨v, hv, rfl⟩]
  · intro layout t x hx hfinite ht other
    obtain ⟨y, hy, rfl⟩ := reformat_expr_eq_ok.mp ht
    obtain rfl : x = y := Except.ok.inj (hx.symm.trans hy)
    exact reformat_expr_eq_ok.mpr ⟨x, Expr.evaluate_text hfinite, rfl⟩

/-- A key that stands twice and a number out of range are lost the first time, parentheses and what
is more than the shortest numeral too. -/
theorem reformat_reformat_of_lossy :
    (reformat .json .compact "\x7b\"a\":[],\"b\":+1e999,\"a\":\"\\u0041\"\x7d" =
        .ok "\x7b\"a\":\"A\",\"b\":null\x7d" ∧
      reformat .json .indented "\x7b\"a\":[],\"b\":+1e999,\"a\":\"\\u0041\"\x7d" =
        .ok "\x7b\n  \"a\": \"A\",\n  \"b\": null\n\x7d") ∧
    (reformat .json .compact "\x7b\"a\":\"A\",\"b\":null\x7d" =
        .ok "\x7b\"a\":\"A\",\"b\":null\x7d" ∧
      reformat .json .indented "\x7b\"a\":\"A\",\"b\":null\x7d" =
        .ok "\x7b\n  \"a\": \"A\",\n  \"b\": null\n\x7d") ∧
    reformat .expr .compact "-(.50)" = .ok "-0.5" ∧ reformat .expr .compact "-0.5" = .ok "-0.5" := by
  have hcompact : reformat .json .compact "\x7b\"a\":[],\"b\":+1e999,\"a\":\"\\u0041\"\x7d" =
      .ok "\x7b\"a\":\"A\",\"b\":null\x7d" := by decide +kernel
  have hindented : reformat .json .indented "\x7b\"a\":[],\"b\":+1e999,\"a\":\"\\u0041\"\x7d" =
      .ok "\x7b\n  \"a\": \"A\",\n  \"b\": null\n\x7d" := by decide +kernel
  have hvalue : Expr.evaluate "-(.50)" = .ok ⟨0xBFE0000000000000⟩ := by decide +kernel
  have hexpr : reformat .expr .compact "-(.50)" = .ok "-0.5" := by decide +kernel
  obtain ⟨hagain, hother⟩ := (reformat_reformat _).1 .compact _ hcompact
  exact ⟨⟨hcompact, hindented⟩, ⟨hagain, (hother .indented).trans hindented⟩, hexpr,
    (reformat_reformat _).2 .compact _ _ hvalue (by decide) hexpr .compact⟩

end Dialects.CommandLine
