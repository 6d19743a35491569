import Dialects.Proofs.Expr.Failing
import Dialects.Proofs.Expr.Place
import Dialects.Proofs.Expr.Scan

/-!
# Refused arithmetic

A failed evaluation has met the first token that no expression goes on with, a number that cannot be
read, or an operand that nests too deep.
-/

namespace Dialects.Expr

/-! ## The first token in the wrong place -/

/-- Whether a failure is that of a token behind symbols that an expression starts with, where the
token is the first that none goes on with. -/
structure Misplaced (ss : List Symbol) (t : Token Symbol) (f : Failure) : Prop where
  stuck : ¬CanContinue (ss ++ [t.symbol])
  incomplete : t.isEof → ¬IsExpression ss
  unexpectedEof : f.cause = .unexpectedEof ↔ t.isEof
  trailingToken : ∀ shown, f.cause = .trailingToken shown ↔
    shown = t.shown ∧ IsExpression ss ∧ t.isEof = false
  expectedToken : ∀ expected found, f.cause = .expectedToken expected found ↔
    expected = Kind.closeParen.name ∧ found = t.shown ∧ OpensGroup ss ∧ EndsInOperand ss ∧
      t.isEof = false
  unexpectedToken : ∀ shown, f.cause = .unexpectedToken shown ↔
    shown = t.shown ∧ t.isEof = false ∧ ¬IsExpression ss ∧ ¬(OpensGroup ss ∧ EndsInOperand ss)

/-- Whether a failure is that of a token behind symbols that an expression starts with: there is no
level left for the operand that is due, or the token is a point where a number may stand, or it is
misplaced. -/
structure Refuses (ss : List Symbol) (t : Token Symbol) (f : Failure) : Prop where
  position : f.position = t.position
  tooDeep : ∀ limit, f.cause = .tooDeep limit ↔ limit = nestingLimit ∧ Begins .sum ss nestingLimit
  malformedNumber : ¬Begins .sum ss nestingLimit → ∀ literal, f.cause = .malformedNumber literal ↔
    literal = "." ∧ t.symbol = ⟨.number, "."⟩ ∧ CanContinue (ss ++ [t.symbol])
  misplaced : ¬Begins .sum ss nestingLimit →
    ¬(t.symbol = ⟨.number, "."⟩ ∧ CanContinue (ss ++ [t.symbol])) → Misplaced ss t f

section

variable {ss : List Symbol} {t : Token Symbol} {f : Failure}

theorem refuses_tooDeep (h : Begins .sum ss nestingLimit) :
    Refuses ss t ⟨.tooDeep nestingLimit, t.position⟩ where
  position := rfl
  tooDeep limit := by simp [h, eq_comm]
  malformedNumber hnot := absurd h hnot
  misplaced hnot := absurd h hnot

theorem refuses_malformed {n : Nat} (h : Begins .sum ss n) (hn : n < nestingLimit)
    (ht : t.symbol = ⟨.number, "."⟩) :
    Refuses ss t ⟨.malformedNumber t.symbol.lexeme, t.position⟩ := by
  have hlimit : ¬Begins .sum ss nestingLimit := h.not_begins_of_lt hn
  have hcontinue : CanContinue (ss ++ [t.symbol]) := by
    obtain ⟨more, hderives⟩ := h.exists_derives (.number (by rw [ht]) : Derives .unary [t.symbol] _)
    exact ⟨more, by simpa [IsExpression] using hderives⟩
  refine ⟨rfl, by simp [hlimit], fun _ literal => ?_, fun _ hnot => absurd ⟨ht, hcontinue⟩ hnot⟩
  simp [ht, ht ▸ hcontinue, eq_comm]

theorem refuses_of_stuck (hposition : f.position = t.position)
    (hdeep : ∀ limit, f.cause ≠ .tooDeep limit) (hnumber : ∀ literal, f.cause ≠ .malformedNumber literal)
    (hlimit : ¬Begins .sum ss nestingLimit) (h : Misplaced ss t f) : Refuses ss t f where
  position := hposition
  tooDeep limit := by simp [hdeep, hlimit]
  malformedNumber _ literal := by simp [hnumber, h.stuck]
  misplaced _ _ := h

theorem refuses_unexpected {n : Nat} (h : Begins .sum ss n) (hn : n < nestingLimit)
    (ht : Table.arithmetic.opening t.symbol.kind = none) : Refuses ss t t.unexpected := by
  obtain ⟨begun, hplace, -⟩ := placeBehind_of_begins h
  have hwhole : ¬IsExpression ss := by
    intro hexpression
    obtain ⟨ls, hls, -⟩ := placeBehind_of_isExpression hexpression
    simp [hplace] at hls
  have hoperand : ¬EndsInOperand ss := fun hend => by simpa using due_of_endsInOperand hplace hend
  have hstuck : ¬CanContinue (ss ++ [t.symbol]) :=
    not_canContinue_of_step hplace (Place.step_eq_none_of_opening ht begun)
  refine refuses_of_stuck rfl ?_ ?_ (h.not_begins_of_lt hn)
    ⟨hstuck, fun _ => hwhole, ?_, ?_, ?_, ?_⟩ <;>
    cases heof : t.isEof <;> simp [Token.unexpected, heof, hwhole, hoperand, eq_comm]

theorem refuses_unclosed {before inner : List Symbol} {opening : Symbol} {n : Nat} {tree : Tree}
    (h : Begins .sum before n) (hopening : opening.kind = .openParen)
    (hinner : Derives .sum inner tree) (ht : Table.arithmetic.binding t.symbol.kind = none)
    (hclose : t.symbol.kind ≠ .closeParen) :
    Refuses (before ++ opening :: inner) t (t.insteadOf .closeParen) := by
  obtain ⟨ls, hplace, hgroup⟩ := placeBehind_of_group h hopening hinner
  have hwhole : ¬IsExpression (before ++ opening :: inner) := by
    intro hexpression
    obtain ⟨ls', hls', hnone⟩ := placeBehind_of_isExpression hexpression
    obtain rfl : ls = ls' := by simpa [hplace] using hls'
    exact hnone hgroup
  have hopens : OpensGroup (before ++ opening :: inner) := (opensGroup_iff hplace).mpr hgroup
  have hoperand : EndsInOperand (before ++ opening :: inner) := by
    simpa using hinner.endsInOperand.append (before ++ [opening])
  have hstuck : ¬CanContinue (before ++ opening :: inner ++ [t.symbol]) :=
    not_canContinue_of_step hplace (Place.step_eq_none_of_binding ht fun hk => absurd hk hclose)
  refine refuses_of_stuck rfl ?_ ?_ (not_begins_of_placeBehind hplace _)
    ⟨hstuck, fun _ => hwhole, ?_, ?_, ?_, ?_⟩ <;>
    cases heof : t.isEof <;>
    simp [Token.insteadOf, Lexicon.kindName, heof, hwhole, hopens, hoperand, eq_comm]

theorem refuses_trailing (h : IsExpression ss) (ht : Table.arithmetic.binding t.symbol.kind = none)
    (hend : t.symbol.kind ≠ .eof) : Refuses ss t t.trailing := by
  obtain ⟨ls, hplace, hgroup⟩ := placeBehind_of_isExpression h
  have hopens : ¬OpensGroup ss := fun hopens => hgroup ((opensGroup_iff hplace).mp hopens)
  have hstuck : ¬CanContinue (ss ++ [t.symbol]) :=
    not_canContinue_of_step hplace (Place.step_eq_none_of_binding ht fun _ => hgroup)
  have heof : t.isEof = false := Bool.eq_false_iff.mpr (mt isEof_iff.mp hend)
  refine refuses_of_stuck rfl ?_ ?_ (not_begins_of_placeBehind hplace _)
    ⟨hstuck, ?_, ?_, ?_, ?_, ?_⟩ <;>
    simp [Token.trailing, heof, h, hopens, eq_comm]

end

/-! ## Whole texts -/

theorem tokenize_eq_ok {source : String} {tokens : List (Token Symbol)}
    (h : tokenize source = .ok tokens) : ∃ position,
      tokens = (Scan.ofSource source).tokens ++ [(⟨.eof, position⟩ : Token Symbol)] := by
  rw [tokenize, Scan.toExcept] at h
  split at h
  · exact ⟨_, (Except.ok.inj h).symm⟩
  · simp at h

theorem eq_point_of_mem {source : String} {tokens : List (Token Symbol)}
    (h : tokenize source = .ok tokens) : ∀ t ∈ tokens, t.symbol.kind = .number →
      Double.read? t.symbol.lexeme.toList = none → t.symbol = ⟨.number, "."⟩ := by
  obtain ⟨position, rfl⟩ := tokenize_eq_ok h
  have hlast : (⟨.eof, position⟩ : Token Symbol).symbol.kind ≠ .number := by simp [Symbol.eof]
  refine List.forall_mem_append.mpr ⟨?_, List.forall_mem_singleton.mpr fun hkind => absurd hkind hlast⟩
  refine Scan.forall_mem_tokens (fun c c' t hnext _ => ?_) _
  exact eq_point_of_next (show next c = (.ok t, c') from hnext)

theorem refuses_of_fails {ss : List Symbol} {t : Token Symbol} {f : Failure}
    (hpoint : t.symbol.kind = .number → Double.read? t.symbol.lexeme.toList = none →
      t.symbol = ⟨.number, "."⟩)
    (h : Fails nestingLimit 0 t ss f) : CanContinue ss ∧ Refuses ss t f := by
  cases h with
  | tooDeep h =>
    have hbegins := beginsAt_zero.mp h
    exact ⟨hbegins.canContinue, refuses_tooDeep hbegins⟩
  | malformed h hn ht hread =>
    have hbegins := beginsAt_zero.mp h
    exact ⟨hbegins.canContinue, refuses_malformed hbegins hn (hpoint ht hread)⟩
  | unexpected h hn ht =>
    have hbegins := beginsAt_zero.mp h
    exact ⟨hbegins.canContinue, refuses_unexpected hbegins hn ht⟩
  | unclosed h hopening hinner ht hclose =>
    have hbegins := beginsAt_zero.mp h
    exact ⟨hbegins.canContinue_group hopening hinner,
      refuses_unclosed hbegins hopening hinner ht hclose⟩

/-- A text of tokens that has no value has been read up to a token, which may be the end, that is
refused. -/
theorem exists_refused_of_evaluate {source : String} {tokens : List (Token Symbol)} {f : Failure}
    (htokens : tokenize source = .ok tokens) (h : evaluate source = .error f) :
    ∃ ts t rest, tokens = ts ++ t :: rest ∧ CanContinue (ts.map Token.symbol) ∧
      Refuses (ts.map Token.symbol) t f := by
  have hpoint := eq_point_of_mem htokens
  have hupcoming : (Stream.ofTokens tokens).upcoming = tokens := by
    obtain ⟨position, rfl⟩ := tokenize_eq_ok htokens
    exact upcoming_ofTokens
  have hevaluate : evaluateTokens tokens = .error f := by rw [← evaluate_of_tokenize htokens, h]
  obtain ⟨ts, t, rest, hsplit, hfails⟩ | ⟨ts, t, rest, tree, hsplit, hderives, hend, hnone, rfl⟩ :=
    hasFailed_or_trailing hevaluate
  · replace hsplit : tokens = ts ++ t :: rest := hupcoming.symm.trans hsplit
    obtain ⟨hcontinue, hrefuses⟩ := refuses_of_fails (hpoint t (by simp [hsplit])) hfails
    exact ⟨ts, t, rest, hsplit, hcontinue, hrefuses⟩
  · rw [hupcoming] at hsplit
    have hexpression : IsExpression (ts.map Token.symbol) := ⟨tree, hderives⟩
    exact ⟨ts, t, rest, hsplit, ⟨[], by rwa [List.append_nil]⟩,
      refuses_trailing hexpression hnone hend⟩

/-- Behind an operand in a group comes an operator or the end of the group. -/
theorem exists_refused_of_evaluate_number :
    evaluate "(1 2" = .error ⟨.expectedToken "CloseParen" "2", 3⟩ ∧
      ∃ ss : List Symbol, ∃ t : Token Symbol, CanContinue ss ∧ ¬CanContinue (ss ++ [t.symbol]) ∧
        t.position = 3 ∧ OpensGroup ss ∧ EndsInOperand ss := by
  have htokens : tokenize "(1 2" = .ok [(⟨⟨.openParen, "("⟩, 0⟩ : Token Symbol),
    ⟨⟨.number, "1"⟩, 1⟩, ⟨⟨.number, "2"⟩, 3⟩, ⟨.eof, 4⟩] := rfl
  have hevaluate : evaluate "(1 2" = .error ⟨.expectedToken "CloseParen" "2", 3⟩ := by rfl
  obtain ⟨ts, t, rest, -, hcontinue, hrefuses⟩ := exists_refused_of_evaluate htokens hevaluate
  have hroom : ¬Begins .sum (ts.map Token.symbol) nestingLimit := fun hfull => by
    simpa using (hrefuses.tooDeep nestingLimit).mpr ⟨rfl, hfull⟩
  have hread : ¬(t.symbol = ⟨.number, "."⟩ ∧ CanContinue (ts.map Token.symbol ++ [t.symbol])) :=
    fun hpoint => by simpa using (hrefuses.malformedNumber hroom ".").mpr ⟨rfl, hpoint⟩
  have hmisplaced := hrefuses.misplaced hroom hread
  obtain ⟨-, -, hopens, hoperand, -⟩ := (hmisplaced.expectedToken "CloseParen" "2").mp rfl
  exact ⟨hevaluate, _, t, hcontinue, hmisplaced.stuck, hrefuses.position.symm, hopens, hoperand⟩

end Dialects.Expr
