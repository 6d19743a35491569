import Dialects.Proofs.Json.Beginning
import Dialects.Proofs.Json.Orthography

/-!
# Refused JSON texts

A failed reading has met a token that could not be made out, or the first that no document goes on
with. The failure is that of this token and stands at its place.
-/

namespace Dialects.Json

/-! ## Refused tokens -/

def State.takesValue : State → Bool
  | value _ | firstItem _ => true
  | _ => false

/-- What a state refuses a token for: no value starts with it, a container that it opens is nested
too deep, another kind of token is due, or the document is complete. -/
inductive State.Refusal (s : State) (t : Token Symbol) : Failure → Prop
  | unexpected (hs : s.takesValue) (ht : t.symbol.isOpening = false) : Refusal s t t.unexpected
  | tooDeep (hs : s.takesValue) (ht : t.symbol.isOpening) (hlevel : nestingLimit ≤ s.level) :
    Refusal s t ⟨.tooDeep nestingLimit, t.position⟩
  | insteadOf (kind : Kind) (hs : s.takesValue = false) (hroot : ∀ v, s ≠ .root v)
    (hkind : ∀ u : Token Symbol, u.symbol.kind = kind → ∃ s', s.step u = .ok (.ok s')) :
    Refusal s t (t.insteadOf kind)
  | trailing (v : Value) (hs : s = .root v) : Refusal s t t.trailing

theorem exists_string_of_kind {s : Symbol} (h : s.kind = .string) : ∃ text, s = .string text := by
  cases s with
  | string text => exact ⟨text, rfl⟩
  | boolean b => cases b <;> simp [Symbol.kind] at h
  | _ => simp [Symbol.kind] at h

theorem eq_of_kind_eq {s mark : Symbol}
    (hmark : mark = .colon ∨ mark = .rightBracket ∨ mark = .rightBrace) (h : s.kind = mark.kind) :
    s = mark := by
  obtain rfl | rfl | rfl := hmark <;> cases s with
  | boolean b => cases b <;> simp [Symbol.kind] at h
  | _ => simp [Symbol.kind] at h ⊢

theorem startMember_eq_error {t : Token Symbol} {before : Entries Value} {frames : List Frame}
    {f : Failure} (h : State.startMember t before frames = .error f) : f = t.insteadOf .string := by
  unfold State.startMember at h
  split at h
  · simp at h
  · exact (Except.error.inj h).symm

theorem startValue_eq_error {t : Token Symbol} {frames : List Frame} {f : Failure}
    (h : State.startValue t frames = .error f) :
    t.symbol.isOpening = false ∧ f = t.unexpected ∨
      t.symbol.isOpening ∧ nestingLimit ≤ frames.length ∧ f = ⟨.tooDeep nestingLimit, t.position⟩ := by
  have hopened {inside : State}
      (h : (.ok <$> State.opened t frames inside : Except Failure (Except Failure State)) = .error f) :
      nestingLimit ≤ frames.length ∧ f = ⟨.tooDeep nestingLimit, t.position⟩ := by
    unfold State.opened at h
    split_ifs at h with hlevel
    · exact ⟨hlevel, by simpa [Functor.map, Except.map, eq_comm] using h⟩
    · simp [Functor.map, Except.map] at h
  cases ht : t.symbol with
  | leftBrace =>
    rw [State.startValue, ht] at h
    exact .inr ⟨rfl, hopened h⟩
  | leftBracket =>
    rw [State.startValue, ht] at h
    exact .inr ⟨rfl, hopened h⟩
  | string _ | number _ | boolean _ | null => simp [State.startValue, ht] at h
  | _ =>
    simp only [State.startValue, ht, Except.error.injEq] at h
    exact .inl ⟨rfl, h.symm⟩

section

variable {s : State} {t : Token Symbol} {f : Failure}

theorem refusal_of_startValue {frames : List Frame} (hs : s.takesValue)
    (hlevel : s.level = frames.length) (h : State.startValue t frames = .error f) :
    s.Refusal t f := by
  obtain ⟨ht, rfl⟩ | ⟨ht, hle, rfl⟩ := startValue_eq_error h
  · exact .unexpected hs ht
  · exact .tooDeep hs ht (by omega)

theorem refusal_of_startMember {before : Entries Value} {frames : List Frame}
    (hs : s.takesValue = false) (hroot : ∀ v, s ≠ .root v)
    (hstep : ∀ text position,
      s.step ⟨.string text, position⟩ = .ok (.ok (.colon before text frames)))
    (h : State.startMember t before frames = .error f) : s.Refusal t f := by
  rw [startMember_eq_error h]
  refine .insteadOf .string hs hroot fun u hu => ?_
  obtain ⟨text, hu⟩ := exists_string_of_kind hu
  have hstep := hstep text u.position
  rw [← hu] at hstep
  exact ⟨_, hstep⟩

theorem refusal_insteadOf_mark {mark : Symbol}
    (hmark : mark = .colon ∨ mark = .rightBracket ∨ mark = .rightBrace)
    (hs : s.takesValue = false) (hroot : ∀ v, s ≠ .root v)
    (hstep : ∀ position, ∃ s', s.step ⟨mark, position⟩ = .ok (.ok s'))
    (hf : t.insteadOf mark.kind = f) : s.Refusal t f := by
  rw [← hf]
  refine .insteadOf _ hs hroot fun u hu => ?_
  have hstep := hstep u.position
  rwa [← eq_of_kind_eq hmark hu] at hstep

theorem refusal_of_step (h : s.step t = .error f) : s.Refusal t f := by
  cases s with
  | value frames => exact refusal_of_startValue rfl rfl h
  | firstItem frames =>
    by_cases ht : t.symbol = .rightBracket
    · simp only [State.step, ht] at h
      cases h
    · have hitem : State.startValue t (.items [] :: frames) = .error f := by
        simpa only [State.step] using h
      exact refusal_of_startValue rfl rfl hitem
  | firstKey frames =>
    by_cases ht : t.symbol = .rightBrace
    · simp only [State.step, ht] at h
      cases h
    · have hmember : State.startMember t [] frames = .error f := by simpa only [State.step] using h
      exact refusal_of_startMember rfl (by simp) (fun text position => rfl) hmember
  | laterKey before frames => exact refusal_of_startMember rfl (by simp) (fun text position => rfl) h
  | colon before name frames =>
    refine refusal_insteadOf_mark (.inl rfl) rfl (by simp) (fun position => ⟨_, rfl⟩) ?_
    simp only [State.step] at h
    split at h
    · cases h
    · exact Except.error.inj h
  | afterItem before frames =>
    refine refusal_insteadOf_mark (.inr (.inl rfl)) rfl (by simp) (fun position => ⟨_, rfl⟩) ?_
    simp only [State.step] at h
    split at h
    · cases h
    · cases h
    · exact Except.error.inj h
  | afterMember before frames =>
    refine refusal_insteadOf_mark (.inr (.inr rfl)) rfl (by simp) (fun position => ⟨_, rfl⟩) ?_
    simp only [State.step] at h
    split at h
    · cases h
    · cases h
    · exact Except.error.inj h
  | root v =>
    obtain rfl : t.trailing = f := Except.error.inj h
    exact .trailing v rfl

end

/-! ## The first token in the wrong place -/

/-- Whether a failure is that of a token behind symbols that a document starts with, where the token
is the first that none goes on with. -/
structure Refuses (ss : List Symbol) (t : Token Symbol) (f : Failure) : Prop where
  stuck : ¬CanContinue (ss ++ [t.symbol])
  incomplete : t.isEof → ¬IsDocument ss
  phase : f.cause.phase = .grammatical
  position : f.position = t.position
  unexpectedEof : f.cause = .unexpectedEof ↔ t.isEof
  trailingToken : (∃ shown, f.cause = .trailingToken shown) ↔ IsDocument ss ∧ t.isEof = false
  tooDeep : (∃ limit, f.cause = .tooDeep limit) ↔
    t.symbol.isOpening ∧ openings ss = closings ss + nestingLimit ∧ CanContinue (ss ++ [.null])
  expectedToken : ∀ expected found, f.cause = .expectedToken expected found →
    ∃ kind : Kind, kind.name = expected ∧ ∀ s : Symbol, s.kind = kind → CanContinue (ss ++ [s])

section

variable {ts : List (Token Symbol)} {s : State} {t : Token Symbol}

theorem takesValue_iff (h : reader.Reaches ts s) :
    s.takesValue ↔ CanContinue (ts.map Token.symbol ++ [.null]) := by
  constructor
  · intro hs
    have hstep : ∃ s', s.step ⟨.null, 0⟩ = .ok (.ok s') := by
      cases s <;> simp [State.takesValue] at hs <;> exact ⟨_, rfl⟩
    obtain ⟨s', hs'⟩ := hstep
    exact canContinue_of_step h hs'
  · intro hcontinue
    by_contra hs
    have hstep : ∃ f, s.step ⟨.null, 0⟩ = .error f := by
      cases s <;> simp [State.takesValue] at hs <;> exact ⟨_, rfl⟩
    obtain ⟨f, hf⟩ := hstep
    exact not_canContinue_of_step h hf hcontinue

theorem isEof_of_isOpening (h : t.symbol.isOpening) : t.isEof = false := by
  apply isEof_eq_false
  intro hs
  simp [hs, Symbol.isOpening] at h

theorem not_isDocument_of_takesValue (h : reader.Reaches ts s) (hs : s.takesValue) :
    ¬IsDocument (ts.map Token.symbol) := by
  rw [isDocument_iff_of_reaches h]
  rintro ⟨v, rfl⟩
  simp [State.takesValue] at hs

theorem refuses_of_step {f : Failure} (h : reader.Reaches ts s) (ht : s.step t = .error f)
    (hend : t.isEof → ∀ v, s ≠ .root v) : Refuses (ts.map Token.symbol) t f := by
  have hstuck := not_canContinue_of_step h ht
  have hdocument := isDocument_iff_of_reaches h
  have hincomplete : t.isEof → ¬IsDocument (ts.map Token.symbol) := by
    intro heof hdoc
    obtain ⟨v, hv⟩ := hdocument.mp hdoc
    exact hend heof v hv
  have hopen := openings_eq_of_reaches h
  have hlimit := level_le_of_reaches h
  have hvalue := takesValue_iff h
  cases refusal_of_step ht with
  | unexpected hs hopening =>
    have hroot := not_isDocument_of_takesValue h hs
    refine ⟨hstuck, hincomplete, ?_, rfl, ?_, ?_, ?_, ?_⟩ <;> cases heof : t.isEof <;>
      simp [Token.unexpected, Cause.phase, heof, hroot, hopening]
  | tooDeep hs hopening hlevel =>
    have hroot := not_isDocument_of_takesValue h hs
    have heof := isEof_of_isOpening hopening
    have hfull : s.level = nestingLimit := by omega
    refine ⟨hstuck, hincomplete, rfl, rfl, ?_, ?_, ?_, ?_⟩ <;>
      simp [heof, hroot, hopening, hopen, hfull, hvalue.mp hs]
  | insteadOf kind hs hroot hkind =>
    have hdue : ∃ due : Kind, due.name = Lexicon.kindName Symbol kind ∧
        ∀ r : Symbol, r.kind = due → CanContinue (ts.map Token.symbol ++ [r]) := by
      refine ⟨kind, rfl, fun r hr => ?_⟩
      obtain ⟨s', hs'⟩ := hkind ⟨r, 0⟩ hr
      exact canContinue_of_step h hs'
    have hplace : ¬CanContinue (ts.map Token.symbol ++ [.null]) := by simp [← hvalue, hs]
    refine ⟨hstuck, hincomplete, ?_, rfl, ?_, ?_, ?_, ?_⟩ <;> cases heof : t.isEof <;>
      simp [Token.insteadOf, Cause.phase, heof, hdocument, hroot, hplace, hdue]
  | trailing v hs =>
    have heof : t.isEof = false := by
      by_contra heof
      exact hend (by simpa using heof) v hs
    have hplace : ¬CanContinue (ts.map Token.symbol ++ [.null]) := by
      simp [← hvalue, hs, State.takesValue]
    refine ⟨hstuck, hincomplete, rfl, rfl, ?_, ?_, ?_, ?_⟩ <;>
      simp [Token.trailing, heof, hdocument, hs, hplace]

end

/-! ## Whole texts -/

section

variable {s : State} {t : Token Symbol} {f : Failure}

theorem malformed_of_startValue {frames : List Frame}
    (h : State.startValue t frames = .ok (.error f)) : ∃ literal, t.symbol = .number literal ∧
      Double.read? literal.toList = none ∧ f = ⟨.malformedNumber literal, t.position⟩ := by
  cases ht : t.symbol with
  | number literal =>
    simp only [State.startValue, State.decoded, ht] at h
    split at h
    · simp [Except.map] at h
    · rename_i hread
      obtain rfl := by simpa [Except.map] using h
      exact ⟨literal, rfl, hread, rfl⟩
  | leftBrace | leftBracket =>
    simp only [State.startValue, State.opened, ht] at h
    split_ifs at h <;> simp [Functor.map, Except.map] at h
  | _ => simp [State.startValue, ht] at h

theorem malformed_of_step (h : s.step t = .ok (.error f)) : ∃ literal, t.symbol = .number literal ∧
    Double.read? literal.toList = none ∧ f = ⟨.malformedNumber literal, t.position⟩ := by
  cases s with
  | value frames => exact malformed_of_startValue h
  | firstItem frames =>
    by_cases hclosing : t.symbol = .rightBracket
    · simp [State.step, hclosing] at h
    · exact malformed_of_startValue (by simpa [State.step, hclosing] using h)
  | _ =>
    simp only [State.step, State.startMember] at h
    repeat' split at h
    all_goals simp at h

theorem step_ne_malformed
    (ht : ∀ literal, t.symbol = .number literal → (Double.read? literal.toList).isSome)
    (s : State) (g : Failure) : s.step t ≠ .ok (.error g) := by
  intro h
  obtain ⟨literal, hsymbol, hread, -⟩ := malformed_of_step h
  simpa [hread] using ht literal hsymbol

theorem step_ne_malformed_of_mem {source : String}
    (ht : t ∈ (Scan.ofSource source : Scan Symbol).tokens) (s : State) (g : Failure) :
    reader.step s t ≠ .ok (.error g) := by
  have hnumber : ∀ u ∈ (Scan.ofSource source : Scan Symbol).tokens, ∀ literal,
      u.symbol = .number literal → (Double.read? literal.toList).isSome :=
    Scan.forall_mem_tokens (fun _ _ _ hnext _ _ hu => isSome_read?_of_next hnext hu) _
  exact step_ne_malformed (hnumber t ht) s g

end

theorem step_of_finish {s : State} {position : Nat} {f : Failure}
    (h : s.finish position = .error f) :
    s.step ⟨.eof, position⟩ = .error f ∧ ∀ v, s ≠ .root v := by
  cases s with
  | root v => simp [State.finish] at h
  | _ =>
    obtain rfl : ⟨.unexpectedEof, position⟩ = f := by simpa [State.finish] using h
    exact ⟨rfl, by simp⟩

/-- A failed reading has come to something that is no token, and fails as that does, or to the first
token that no document goes on with, and refuses that. -/
theorem exists_refused_of_parse {source : String} {f : Failure} (h : parse source = .error f) :
    ∃ ts : List (Token Symbol), CanContinue (ts.map Token.symbol) ∧
      (nextTokens (ts.length + 1) (Text.Cursor.start source) = ts.map .ok ++ [.error f] ∨
        ∃ t, nextTokens (ts.length + 1) (Text.Cursor.start source) = ts.map .ok ++ [.ok t] ∧
          Refuses (ts.map Token.symbol) t f) := by
  obtain ⟨ts, s, hreach, hfailed | ⟨t, htokens, hrefused⟩⟩ :=
    Reader.exists_reaches_of_read_error (fun t ht => step_ne_malformed_of_mem ht) h
  · exact ⟨ts, canContinue_of_reaches hreach, .inl hfailed⟩
  · have hrefuses : Refuses (ts.map Token.symbol) t f := by
      obtain ⟨heof, hstep⟩ | ⟨heof, hfinish⟩ := hrefused
      · exact refuses_of_step hreach hstep (by simp [heof])
      · obtain ⟨hstep, hroot⟩ := step_of_finish hfinish
        rw [← isEof_iff.mp heof] at hstep
        exact refuses_of_step hreach hstep fun _ => hroot
    exact ⟨ts, canContinue_of_reaches hreach, .inr ⟨t, htokens, hrefuses⟩⟩

/-- A comma in the place of an item is refused, not the string behind it that is not closed. -/
theorem exists_refused_of_parse_comma :
    parse "[null,,\"" = .error ⟨.unexpectedToken ",", 6⟩ ∧
      nextTokens 4 (Text.Cursor.start "[null,,\"") =
        [⟨.leftBracket, 0⟩, ⟨.null, 1⟩, ⟨.comma, 5⟩].map .ok ++ [.ok (⟨.comma, 6⟩ : Token Symbol)] ∧
      CanContinue [.leftBracket, .null, .comma] ∧
      Refuses [.leftBracket, .null, .comma] ⟨.comma, 6⟩ ⟨.unexpectedToken ",", 6⟩ := by
  have hparse : parse "[null,,\"" = .error ⟨.unexpectedToken ",", 6⟩ := by rfl
  have hread (n : Nat) : nextTokens (n + 5) (Text.Cursor.start "[null,,\"") =
      .ok (⟨.leftBracket, 0⟩ : Token Symbol) :: .ok ⟨.null, 1⟩ :: .ok ⟨.comma, 5⟩ :: .ok ⟨.comma, 6⟩ ::
        .error ⟨.unterminatedString, 7⟩ :: nextTokens n ⟨8, []⟩ := rfl
  obtain ⟨ts, hcontinue, h⟩ := exists_refused_of_parse hparse
  rw [← take_nextTokens (Nat.le_add_right _ 4), hread] at h
  obtain hfailed | ⟨t, htokens, hrefuses⟩ := h
  · rcases ts with _ | ⟨a, _ | ⟨b, _ | ⟨c, _ | ⟨d, _ | ⟨e, ts⟩⟩⟩⟩⟩ <;> simp at hfailed
  · -- The refused token stands where the failure lies, and only one of those that are read does.
    have hposition := hrefuses.position
    rcases ts with _ | ⟨a, _ | ⟨b, _ | ⟨c, _ | ⟨d, _ | ⟨e, ts⟩⟩⟩⟩⟩ <;> simp at htokens
    · simp [← htokens] at hposition
    · simp [← htokens] at hposition
    · simp [← htokens] at hposition
    · obtain ⟨rfl, rfl, rfl, rfl⟩ := htokens
      exact ⟨hparse, rfl, hcontinue, hrefuses⟩

end Dialects.Json
