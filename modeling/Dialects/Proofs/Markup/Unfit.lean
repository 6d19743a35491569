import Dialects.Proofs.Markup.Refused

/-!
# Integers that do not fit

An integer is decoded once the token behind it has been read. Where it does not fit, it fails at its
own place, unless what is behind it cannot be made out.
-/

namespace Dialects.Markup

open Dialects.Text (Cursor)

/-! ## Where a value may stand -/

theorem symbol_ne_eof_of_reaches {ts : List (Token Symbol)} {s : State} (h : reader.Reaches ts s) :
    ∀ t ∈ ts, t.symbol ≠ .eof := by
  induction h with
  | start => simp
  | step h ht ih =>
    refine List.forall_mem_append.mpr ⟨ih, ?_⟩
    rw [List.forall_mem_singleton]
    intro heof
    obtain ⟨tags, -, hmoves⟩ := moves_of_step ht
    cases hmoves with
    | opening hopen _ => simp [heof] at hopen
    | leaf hleaf => simp [heof, Symbol.leaf?] at hleaf
    | closing hclose => simp [heof] at hclose

theorem exists_reaches_before {ts : List (Token Symbol)}
    (h : CanContinue (ts.map Token.symbol ++ [.null])) :
    ∃ tags, reader.Reaches ts (.before tags) := by
  obtain ⟨more, hdocument⟩ := h
  have htokens : ts.map Token.symbol ++ [.null] ++ more =
      (ts ++ (⟨.null, 0⟩ : Token Symbol) :: more.map (⟨·, 0⟩)).map Token.symbol := by
    simp [Function.comp_def]
  -- A document with a leaf in that place has been read up to there.
  rw [htokens, isDocument_iff] at hdocument
  obtain ⟨v, hrun⟩ := hdocument
  obtain ⟨s, hreach⟩ := Reader.Reaches.exists_of_prefix .start hrun (List.prefix_append _ _)
  rw [List.nil_append] at hreach
  rw [hreach.run_append] at hrun
  obtain ⟨s', hstep, -⟩ := reader.exists_step_of_run_cons hrun
  obtain ⟨tags, rfl, -⟩ := moves_of_step hstep
  exact ⟨tags, hreach⟩

theorem step_of_not_fits {t : Token Symbol} {literal : String} (ht : t.symbol = .number literal)
    (hfits : ¬t.symbol.Fits) (tags : List Tag) :
    reader.step (.before tags) t = .ok (.error ⟨.malformedNumber literal, t.position⟩) := by
  have hread : Integer.read? literal.toList = none := by
    rw [ht] at hfits
    simpa using mt isSome_read?_iff.mp hfits
  rw [show reader.step (.before tags) t = State.step (.before tags) t from rfl,
    State.step_before (by simp [ht]), State.startValue, ht]
  simp [State.decoded, hread, Except.map]

/-! ## Whole texts -/

/-- An integer that does not fit, the first token of a text that cannot be made sense of, stands
where a leaf may. The text is refused for it, unless what is behind it is no token: then the text is
refused for that. -/
theorem parse_of_not_fits {source : String} {ts : List (Token Symbol)} {t : Token Symbol}
    {literal : String}
    (htokens : nextTokens (ts.length + 1) (Cursor.start source) = ts.map .ok ++ [.ok t])
    (hallowed : CanContinue (ts.map Token.symbol ++ [.null])) (ht : t.symbol = .number literal)
    (hfits : ¬t.symbol.Fits) :
    ∃ behind : Except Failure (Token Symbol),
      nextTokens (ts.length + 2) (Cursor.start source) = ts.map .ok ++ [.ok t, behind] ∧
      parse source = match behind with
        | .ok _ => .error ⟨.malformedNumber literal, t.position⟩
        | .error f => .error f := by
  obtain ⟨tags, hreach⟩ := exists_reaches_before hallowed
  have hplain : ∀ u ∈ ts ++ [t], u.isEof = false :=
    List.forall_mem_append.mpr ⟨fun u hu => isEof_eq_false (symbol_ne_eof_of_reaches hreach u hu),
      by simp [isEof_eq_false, ht]⟩
  obtain ⟨c, hnext, hscan⟩ := exists_cursor_of_nextTokens hplain (by simpa using htokens)
  have hbehind := hnext 1
  rw [List.length_append, Nat.add_assoc, List.map_append, List.append_assoc] at hbehind
  refine ⟨(Lexicon.next c).1, hbehind, ?_⟩
  rw [parse, Reader.read, show Scan.ofSource source = Scan.ofCursor (Cursor.start source) from rfl,
    hscan, List.append_assoc, hreach.run_append, List.singleton_append,
    Reader.run_cons_ok reader (step_of_not_fits ht hfits tags), Reader.run_error_ofCursor]
  cases (Lexicon.next (σ := Symbol) c).1 <;> rfl

theorem parse_of_not_fits_in_tag :
    parse "<a>99999999999999999999</a>" =
      .error ⟨.malformedNumber "99999999999999999999", 3⟩ := by
  have htokens : nextTokens ([(⟨.openTag "a", 0⟩ : Token Symbol)].length + 1)
      (Cursor.start "<a>99999999999999999999</a>") = [(⟨.openTag "a", 0⟩ : Token Symbol)].map .ok ++
        [.ok (⟨.number "99999999999999999999", 3⟩ : Token Symbol)] := rfl
  obtain ⟨behind, hbehind, hparse⟩ := parse_of_not_fits htokens
    ⟨[.closeTag "a"], (isDocument_iff [⟨.openTag "a", 0⟩, ⟨.null, 0⟩, ⟨.closeTag "a", 0⟩]).mpr
      ⟨_, rfl⟩⟩ rfl (fun h => absurd h.2 (by decide))
  obtain rfl : .ok ⟨.closeTag "a", 23⟩ = behind :=
    (List.cons.inj (List.cons.inj (List.cons.inj hbehind).2).2).1
  exact hparse

/-- An integer that does not fit is not always what its text is refused for. -/
theorem exists_parse_ne_of_not_fits :
    ∃ (source : String) (ts : List (Token Symbol)) (t : Token Symbol) (literal : String),
      nextTokens (ts.length + 1) (Cursor.start source) = ts.map .ok ++ [.ok t] ∧
      CanContinue (ts.map Token.symbol ++ [.null]) ∧ t.symbol = .number literal ∧
      ¬t.symbol.Fits ∧ parse source ≠ .error ⟨.malformedNumber literal, t.position⟩ := by
  refine ⟨"<a>99999999999999999999<", [⟨.openTag "a", 0⟩], ⟨.number "99999999999999999999", 3⟩,
    "99999999999999999999", rfl, ?_, rfl, fun h => absurd h.2 (by decide), ?_⟩
  · exact ⟨[.closeTag "a"], (isDocument_iff
      [⟨.openTag "a", 0⟩, ⟨.null, 0⟩, ⟨.closeTag "a", 0⟩]).mpr ⟨_, rfl⟩⟩
  · rw [show parse "<a>99999999999999999999<" = .error ⟨.unterminatedTag "", 23⟩ from rfl]
    simp

end Dialects.Markup
