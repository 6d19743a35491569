import Dialects.Proofs.Json.Located
import Dialects.Proofs.Expr.Reached

/-!
# Numbers

What a dialect makes out as a number can be read as one, but for a sign or a point that stands alone.
-/

namespace Dialects.Json

open Dialects.Text

/-! ## Signs without digits

A sign with no digit behind it is the only malformed number. It is refused where it is scanned, as every
number that is scanned can be read.
-/

theorem sign_of_number?_eq_none {d : Char} {rest : List Char}
    (hd : d.isDigit ∨ d = '-' ∨ d = '+') (h : Literal.number? (d :: rest) = none) :
    (d = '+' ∨ d = '-') ∧ Stops Char.isDigit rest := by
  have hstops : Stops Char.isDigit ((d :: rest).drop (Literal.sign (d :: rest)).length) :=
    stops_of_takeWhile_eq_nil (by simpa [Literal.number?] using h)
  obtain hd | rfl | rfl := hd
  · obtain ⟨hminus, hplus⟩ := ne_sign_of_isDigit hd
    have hsign : Literal.sign (d :: rest) = [] := by simp [Literal.sign, hminus, hplus]
    simp [hsign, hd] at hstops
  · exact ⟨.inr rfl, hstops⟩
  · exact ⟨.inl rfl, hstops⟩

theorem sign_of_next {c c' : Cursor} {literal : String} {position : Nat}
    (h : next c = (.error ⟨.malformedNumber literal, position⟩, c')) :
    ∃ sign rest, c.skipBlanks.rest = sign :: rest ∧ (sign = '+' ∨ sign = '-') ∧
      Stops Char.isDigit rest ∧ position = c.skipBlanks.offset := by
  simp only [next] at h
  split at h
  · simp at h
  · rename_i d rest hrest
    split at h
    · simp at h
    · split_ifs at h with hquote hnumber hword
      · obtain rfl : d = '"' := by simpa using hquote
        cases (pointsAt_of_nextString hrest h).1
      · unfold nextNumber at h
        rw [hrest] at h
        split at h
        · simp at h
        · rename_i hnone
          obtain ⟨⟨-, rfl⟩, -⟩ := by simpa using h
          have hd : d.isDigit ∨ d = '-' ∨ d = '+' := by simpa [or_assoc] using hnumber
          obtain ⟨hsign, hstops⟩ := sign_of_number?_eq_none hd hnone
          exact ⟨d, rest, hrest, hsign, hstops, rfl⟩
      · simp only [nextWord] at h
        split at h <;> simp at h
      · simp at h

theorem ne_malformed_of_step {s : State} {t : Token Symbol} {f : Failure} (h : s.step t = .error f)
    (literal : String) : f.cause ≠ .malformedNumber literal := by
  cases refusal_of_step h with
  | unexpected hs ht => cases heof : t.isEof <;> simp [Token.unexpected, heof]
  | tooDeep hs ht hlevel => simp
  | insteadOf kind hs hroot hkind => cases heof : t.isEof <;> simp [Token.insteadOf, heof]
  | trailing v hs => simp [Token.trailing]

theorem ending_of_parse_eq_malformed {source literal : String} {position : Nat}
    (h : parse source = .error ⟨.malformedNumber literal, position⟩) :
    (Scan.ofSource source : Scan Symbol).ending = .failed ⟨.malformedNumber literal, position⟩ := by
  obtain ⟨us, t, vs, s, -, -, hrefused⟩ | ⟨s, -, hfailed | ⟨end', -, hfinish⟩⟩ :=
    Reader.exists_reaches_of_run_error (fun t ht => step_ne_malformed_of_mem ht) .start h
  · exact absurd rfl (ne_malformed_of_step hrefused literal)
  · exact hfailed
  · exact absurd rfl (ne_malformed_of_step (step_of_finish hfinish).1 literal)

theorem exists_sign_of_parse {source literal : String} {position : Nat}
    (h : parse source = .error ⟨.malformedNumber literal, position⟩) :
    (tokenize source : Except Failure (List (Token Symbol))) =
        .error ⟨.malformedNumber literal, position⟩ ∧
      ∃ before sign rest, source.toList = before ++ sign :: rest ∧ byteLength before = position ∧
        (sign = '+' ∨ sign = '-') ∧ Stops Char.isDigit rest := by
  have hending := ending_of_parse_eq_malformed h
  refine ⟨by rw [tokenize, Scan.toExcept, hending], ?_⟩
  obtain ⟨c, c', hc, hnext⟩ := Scan.exists_next_of_failed (Cursor.standsIn_start source) hending
  obtain ⟨sign, rest, hrest, hsign, hstops, rfl⟩ := sign_of_next hnext
  obtain ⟨before, hsource, hoffset⟩ := hc.skipBlanks
  exact ⟨before, sign, rest, hrest ▸ hsource, hoffset, hsign, hstops⟩

end Dialects.Json

namespace Dialects

open Dialects.Text

/-! ## Both dialects -/

/-- Every number of JSON can be read, so a text fails for one only where it is made out, which is at a
sign without a digit behind it. Of the numbers of arithmetic, a point alone is the only one that cannot
be read, and a text fails for one exactly if it reaches such a point as an operand. -/
theorem number_scanners_agree :
    (∀ cs : List Char, (Double.read? cs).isSome ↔ IsDoubleText cs) ∧
      (∀ (c c' : Cursor) (t : Token Json.Symbol) (literal : String), Json.next c = (.ok t, c') →
        t.symbol = .number literal → (Double.read? literal.toList).isSome) ∧
      (∀ (source literal : String) (position : Nat),
        Json.parse source = .error ⟨.malformedNumber literal, position⟩ →
          (tokenize source : Except Failure (List (Token Json.Symbol))) =
              .error ⟨.malformedNumber literal, position⟩ ∧
            ∃ before sign rest, source.toList = before ++ sign :: rest ∧
              byteLength before = position ∧ (sign = '+' ∨ sign = '-') ∧ Stops Char.isDigit rest) ∧
      (∀ (c c' : Cursor) (t : Token Expr.Symbol), Expr.next c = (.ok t, c') → t.symbol.kind = .number →
        (Double.read? t.symbol.lexeme.toList = none ↔ t.symbol.lexeme = ".")) ∧
      ∀ (source literal : String) (position : Nat),
        Expr.evaluate source = .error ⟨.malformedNumber literal, position⟩ ↔
          literal = "." ∧ ∃ tokens s, tokenize source = .ok tokens ∧
            Expr.Reaches .arithmetic (.expression 0, Expr.Climber.ofTokens tokens)
              (.operand .number, s) ∧
            s.stream.current = ⟨⟨.number, "."⟩, position⟩ := by
  refine ⟨fun cs => Double.isSome_read?_iff, fun c c' t literal h ht => Json.isSome_read?_of_next h ht,
    fun source literal position => Json.exists_sign_of_parse, fun c c' t h ht => ⟨fun hread => ?_, ?_⟩,
    fun source literal position => Expr.evaluate_malformed_iff⟩
  · rw [Expr.eq_point_of_next h ht hread]
  · intro hpoint
    rw [hpoint]
    decide

theorem number_scanners_agree_on_lone_signs_and_points :
    (Json.next (.start "-1.5e3,")).1 = .ok ⟨.number "-1.5e3", 0⟩ ∧
      (Double.read? "-1.5e3".toList).isSome ∧
      Json.parse "[1, -]" = .error ⟨.malformedNumber "-", 4⟩ ∧
      (∃ before sign rest, "[1, -]".toList = before ++ sign :: rest ∧ byteLength before = 4 ∧
        (sign = '+' ∨ sign = '-') ∧ Stops Char.isDigit rest) ∧
      (Expr.next (.start ".+1")).1 = .ok ⟨⟨.number, "."⟩, 0⟩ ∧ Double.read? ".".toList = none ∧
      Expr.evaluate "1+." = .error ⟨.malformedNumber ".", 2⟩ ∧
      ∃ tokens s, tokenize "1+." = .ok tokens ∧
        Expr.Reaches .arithmetic (.expression 0, Expr.Climber.ofTokens tokens) (.operand .number, s) ∧
        s.stream.current = ⟨⟨.number, "."⟩, 2⟩ := by
  obtain ⟨-, hjson, hsign, hexpr, hpoint⟩ := number_scanners_agree
  have hparse : Json.parse "[1, -]" = .error ⟨.malformedNumber "-", 4⟩ := by rfl
  have hevaluate : Expr.evaluate "1+." = .error ⟨.malformedNumber ".", 2⟩ := by rfl
  refine ⟨rfl, hjson (.start "-1.5e3,") _ ⟨.number "-1.5e3", 0⟩ _ rfl rfl, hparse,
    (hsign _ _ _ hparse).2, rfl, ?_, hevaluate, ((hpoint _ _ _).mp hevaluate).2⟩
  exact (hexpr (.start ".+1") _ ⟨⟨.number, "."⟩, 0⟩ rfl rfl).mpr rfl

end Dialects
