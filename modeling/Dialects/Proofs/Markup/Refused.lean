import Dialects.Proofs.Markup.Language

/-!
# Refused markup texts

A failed reading has met a token that could not be made out, or the first that no document goes on
with. The failure is that of this token and stands at its place.
-/

namespace Dialects.Markup

/-! ## Beginnings of documents -/

/-- Whether symbols are derived by the grammar with at most as many tags open at a time as the limit
allows. -/
def IsDocument (ss : List Symbol) : Prop := ∃ v, Derives ss v ∧ NestedWithin nestingLimit [] ss

def CanContinue (ss : List Symbol) : Prop := ∃ more, IsDocument (ss ++ more)

theorem isDocument_iff (ts : List (Token Symbol)) : IsDocument (ts.map Token.symbol) ↔
    ∃ v, reader.run (.eof 0) (.ok reader.start) ts = .ok v := by
  simp [IsDocument, show reader.start = State.start from rfl, run_eq_ok_iff, exists_comm]

theorem canFinish_place (v : Value) (tags : List Tag) : reader.CanFinish (State.place v tags) := by
  induction tags generalizing v with
  | nil => exact ⟨[], v, rfl⟩
  | cons tag outer ih =>
    exact Reader.canFinish_of_step ⟨.closeTag tag.name, 0⟩
      (Moves.step (.closing rfl : Moves _ (tag.add v :: outer) _)) (ih _)

theorem canFinish (s : State) : reader.CanFinish s := by
  cases s with
  | start => exact Reader.canFinish_of_step ⟨.null, 0⟩ rfl (canFinish_place .null [])
  | inside tag outer =>
    exact Reader.canFinish_of_step ⟨.closeTag tag.name, 0⟩
      (Moves.step (.closing rfl : Moves _ (tag :: outer) _)) (canFinish_place _ outer)
  | root v => exact canFinish_place v []

/-! ## Refused tokens -/

@[simp] theorem State.before_ne_root (tags : List Tag) (v : Value) : before tags ≠ root v := by
  cases tags <;> simp [before]

/-- What a state refuses a token for: the text ends too early, a tag is closed that is not open or
not the innermost, a tag is nested too deep, or the document is complete. -/
inductive State.Refusal (s : State) (t : Token Symbol) : Failure → Prop
  | ended (hs : ∀ v, s ≠ .root v) (ht : t.symbol = .eof) : Refusal s t ⟨.unexpectedEof, t.position⟩
  | unopened (hs : s = .start) {name : String} (ht : t.symbol = .closeTag name) :
    Refusal s t ⟨.unexpectedToken t.shown, t.position⟩
  | mismatched {tag : Tag} {outer : List Tag} (hs : s = .inside tag outer) {name : String}
    (ht : t.symbol = .closeTag name) (hname : tag.name ≠ name) :
    Refusal s t ⟨.mismatchedCloseTag tag.name name, t.position⟩
  | tooDeep {tags : List Tag} (hs : s = .before tags) {name : String} (ht : t.symbol = .openTag name)
    (hlevel : nestingLimit ≤ tags.length) : Refusal s t ⟨.tooDeep nestingLimit, t.position⟩
  | trailing {v : Value} (hs : s = .root v) : Refusal s t t.trailing

section

variable {s : State} {t : Token Symbol} {f : Failure}

theorem refusal_of_startValue {tags : List Tag}
    (hclose : ∀ name, t.symbol = .closeTag name → tags = [])
    (h : State.startValue t tags = .error f) : (State.before tags).Refusal t f := by
  cases ht : t.symbol with
  | openTag name =>
    rw [State.startValue, ht] at h
    simp only [State.opened] at h
    split_ifs at h with hlevel
    · obtain rfl : ⟨.tooDeep nestingLimit, t.position⟩ = f := by
        simpa [Functor.map, Except.map] using h
      exact .tooDeep rfl ht hlevel
    · simp [Functor.map, Except.map] at h
  | closeTag name =>
    obtain rfl := hclose name ht
    obtain rfl : t.unexpected = f := by simpa [State.startValue, ht] using h
    rw [Token.unexpected, isEof_eq_false (by simp [ht])]
    exact .unopened rfl ht
  | eof =>
    obtain rfl : t.unexpected = f := by simpa [State.startValue, ht] using h
    rw [Token.unexpected, if_pos (isEof_iff.mpr ht)]
    exact .ended (State.before_ne_root tags) ht
  | _ => simp [State.startValue, ht] at h

theorem refusal_of_step (h : s.step t = .error f) : s.Refusal t f := by
  cases s with
  | start => exact refusal_of_startValue (fun _ _ => rfl) h
  | root v =>
    obtain rfl : t.trailing = f := Except.error.inj h
    exact .trailing rfl
  | inside tag outer =>
    by_cases hclose : ∃ name, t.symbol = .closeTag name
    · obtain ⟨name, ht⟩ := hclose
      simp only [State.step, ht] at h
      split_ifs at h with hname
      obtain rfl := Except.error.inj h
      exact .mismatched rfl ht (Ne.symm hname)
    · rw [not_exists] at hclose
      have hstart : State.startValue t (tag :: outer) = .error f := by
        rwa [← State.step_before hclose]
      exact refusal_of_startValue (fun name ht => absurd ht (hclose name)) hstart

theorem step_of_finish {position : Nat} (h : s.finish position = .error f) :
    s.step ⟨.eof, position⟩ = .error f ∧ ∀ v, s ≠ .root v := by
  cases s with
  | root v => simp [State.finish] at h
  | _ =>
    obtain rfl : ⟨.unexpectedEof, position⟩ = f := by simpa [State.finish] using h
    exact ⟨rfl, by simp⟩

end

/-! ## The first token in the wrong place -/

/-- Whether a failure is that of a token behind symbols that a document starts with, where the token
is the first that none goes on with. -/
structure Refuses (ss : List Symbol) (t : Token Symbol) (f : Failure) : Prop where
  stuck : ¬CanContinue (ss ++ [t.symbol])
  incomplete : t.isEof → ¬IsDocument ss
  phase : f.cause.phase = .grammatical
  position : f.position = t.position
  unexpectedEof : f.cause = .unexpectedEof ↔ t.isEof
  trailingToken : ∀ shown, f.cause = .trailingToken shown ↔
    shown = t.shown ∧ IsDocument ss ∧ t.isEof = false
  unexpectedToken : ∀ shown, f.cause = .unexpectedToken shown ↔
    shown = t.shown ∧ ss = [] ∧ ∃ name, t.symbol = .closeTag name
  mismatchedCloseTag : ∀ expected found, f.cause = .mismatchedCloseTag expected found ↔
    t.symbol = .closeTag found ∧ (openBehindAll [] ss).getLast? = some expected ∧ expected ≠ found
  tooDeep : ∀ limit, f.cause = .tooDeep limit ↔ limit = nestingLimit ∧
    (∃ name, t.symbol = .openTag name) ∧ (openBehindAll [] ss).length = nestingLimit
  expectedToken : ∀ expected found, f.cause ≠ .expectedToken expected found

section

variable {ts : List (Token Symbol)} {s : State} {t : Token Symbol} {f : Failure}

theorem eq_start_iff (h : reader.Reaches ts s) : s = .start ↔ ts = [] := by
  constructor
  · rintro rfl
    generalize hs : State.start = s at h
    cases h with
    | start => rfl
    | step h ht =>
      obtain ⟨tags, -, hmoves⟩ := moves_of_step ht
      cases hmoves with
      | opening _ _ => simp at hs
      | leaf _ => cases tags <;> simp [State.place] at hs
      | @closing tag outer _ => cases outer <;> simp [State.place] at hs
  · rintro rfl
    exact h.eq_start

theorem isDocument_iff_of_reaches (h : reader.Reaches ts s) :
    IsDocument (ts.map Token.symbol) ↔ ∃ v, s = .root v := by
  rw [h.document_iff isDocument_iff, show reader.finish s 0 = s.finish 0 from rfl]
  cases s <;> simp [State.finish]

theorem refuses_of_step (h : reader.Reaches ts s) (ht : s.step t = .error f)
    (hend : t.isEof → ∀ v, s ≠ .root v) : Refuses (ts.map Token.symbol) t f := by
  have hstuck : ¬CanContinue (ts.map Token.symbol ++ [t.symbol]) :=
    h.not_exists_document isDocument_iff ht
  have hdocument := isDocument_iff_of_reaches h
  have hincomplete : t.isEof → ¬IsDocument (ts.map Token.symbol) := by
    intro heof hdoc
    obtain ⟨v, hv⟩ := hdocument.mp hdoc
    exact hend heof v hv
  obtain ⟨hopen, hlimit⟩ := isBehind_of_reaches h
  have hstart : ts.map Token.symbol = [] ↔ s = .start := by rw [List.map_eq_nil_iff, eq_start_iff h]
  -- The kind of the refusal settles all that is asked of the failure.
  cases refusal_of_step ht with
  | ended hs heof =>
    refine ⟨hstuck, hincomplete, rfl, rfl, ?_, ?_, ?_, ?_, ?_, ?_⟩ <;>
      simp [isEof_iff.mpr heof, heof]
  | unopened hs hclose =>
    refine ⟨hstuck, hincomplete, rfl, rfl, ?_, ?_, ?_, ?_, ?_, ?_⟩ <;>
      simp [isEof_eq_false, hclose, hstart, hdocument, hopen, hs, State.openTags, eq_comm]
  | @mismatched tag outer hs name hclose hname =>
    have hnames (expected found : String) : tag.name = expected ∧ name = found ↔
        name = found ∧ tag.name = expected ∧ expected ≠ found := by
      constructor
      · rintro ⟨rfl, rfl⟩
        exact ⟨rfl, rfl, hname⟩
      · rintro ⟨hfound, hexpected, -⟩
        exact ⟨hexpected, hfound⟩
    refine ⟨hstuck, hincomplete, rfl, rfl, ?_, ?_, ?_, ?_, ?_, ?_⟩ <;>
      simp [isEof_eq_false, hclose, hstart, hdocument, hopen, hs, State.openTags, hnames]
  | tooDeep hs hopening hlevel =>
    subst hs
    rw [State.openTags_before] at hlimit hopen
    have hfull : (openBehindAll [] (ts.map Token.symbol)).length = nestingLimit := by
      simp [hopen]
      omega
    refine ⟨hstuck, hincomplete, rfl, rfl, ?_, ?_, ?_, ?_, ?_, ?_⟩ <;>
      simp [isEof_eq_false, hopening, hdocument, hfull, eq_comm (a := nestingLimit)]
  | trailing hs =>
    have heof : t.isEof = false := by
      by_contra heof
      exact hend (by simpa using heof) _ hs
    refine ⟨hstuck, hincomplete, rfl, rfl, ?_, ?_, ?_, ?_, ?_, ?_⟩ <;>
      simp [Token.trailing, heof, hdocument, hs, hopen, hstart, State.openTags, eq_comm, nestingLimit]

end

/-! ## Whole texts -/

section

variable {s : State} {t : Token Symbol} {f : Failure}

theorem malformed_of_startValue {tags : List Tag} (h : State.startValue t tags = .ok (.error f)) :
    ∃ literal, t.symbol = .number literal ∧ Integer.read? literal.toList = none ∧
      f = ⟨.malformedNumber literal, t.position⟩ := by
  cases ht : t.symbol with
  | number literal =>
    simp only [State.startValue, State.decoded, ht] at h
    split at h
    · simp [Except.map] at h
    · rename_i hread
      obtain rfl := by simpa [Except.map] using h
      exact ⟨literal, rfl, hread, rfl⟩
  | openTag name =>
    simp only [State.startValue, State.opened, ht] at h
    split_ifs at h <;> simp [Functor.map, Except.map] at h
  | _ => simp [State.startValue, ht] at h

theorem malformed_of_step (h : s.step t = .ok (.error f)) : ∃ literal, t.symbol = .number literal ∧
    Integer.read? literal.toList = none ∧ f = ⟨.malformedNumber literal, t.position⟩ := by
  cases s with
  | start => exact malformed_of_startValue h
  | root v => simp [State.step] at h
  | inside tag outer =>
    by_cases hclose : ∃ name, t.symbol = .closeTag name
    · obtain ⟨name, ht⟩ := hclose
      simp only [State.step, ht] at h
      split_ifs at h
      simp at h
    · have hstart : State.startValue t (tag :: outer) = .ok (.error f) := by
        rwa [← State.step_before (not_exists.mp hclose)]
      exact malformed_of_startValue hstart

theorem step_ne_malformed (ht : t.symbol.Fits) (s : State) (g : Failure) : s.step t ≠ .ok (.error g) := by
  intro h
  obtain ⟨literal, hsymbol, hread, -⟩ := malformed_of_step h
  rw [hsymbol] at ht
  simpa [hread] using isSome_read?_iff.mpr ht

end

theorem phase_of_next {c c' : Text.Cursor} {f : Failure} (h : next c = (.error f, c')) :
    f.cause.phase = .lexical := by
  have htag {place c' : Text.Cursor} {cs : List Char} (h : nextTag place cs = (.error f, c')) :
      f.cause.phase = .lexical := by
    simp only [nextTag] at h
    split_ifs at h <;> simp at h <;> rw [← h.1] <;> rfl
  unfold next at h
  dsimp only at h
  split at h
  · simp at h
  · split_ifs at h
    · exact htag h
    · simp at h
      rw [← h.1]
      rfl
    · simp at h

/-- A failed reading of integers that fit has come to something that is no token, and fails as that
does, or to the first token that no document goes on with, and refuses that. -/
theorem exists_misplaced_of_parse {source : String} {f : Failure}
    (hfits : ∀ t ∈ (Scan.ofSource source : Scan Symbol).tokens, t.symbol.Fits)
    (h : parse source = .error f) :
    (∀ expected found, f.cause ≠ .expectedToken expected found) ∧
      ∃ ts : List (Token Symbol), CanContinue (ts.map Token.symbol) ∧
        (nextTokens (ts.length + 1) (Text.Cursor.start source) = ts.map .ok ++ [.error f] ∧
            f.cause.phase = .lexical ∨
          ∃ t, nextTokens (ts.length + 1) (Text.Cursor.start source) = ts.map .ok ++ [.ok t] ∧
            Refuses (ts.map Token.symbol) t f) := by
  have hdecoded : ∀ t ∈ (Scan.ofSource source : Scan Symbol).tokens, ∀ s g,
      reader.step s t ≠ .ok (.error g) := fun t ht => step_ne_malformed (hfits t ht)
  obtain ⟨ts, s, hreach, hfailed | ⟨t, htokens, hrefused⟩⟩ :=
    Reader.exists_reaches_of_read_error hdecoded h
  · obtain ⟨c, c', hnext⟩ := exists_next_of_mem
      (by rw [hfailed]; simp : Except.error f ∈ nextTokens (ts.length + 1) (Text.Cursor.start source))
    have hphase := phase_of_next hnext
    refine ⟨fun expected found hcause => ?_, ts, hreach.exists_document isDocument_iff (canFinish s),
      .inl ⟨hfailed, hphase⟩⟩
    simp [hcause, Cause.phase] at hphase
  · have hrefuses : Refuses (ts.map Token.symbol) t f := by
      obtain ⟨heof, hstep⟩ | ⟨heof, hfinish⟩ := hrefused
      · exact refuses_of_step hreach hstep (by simp [heof])
      · obtain ⟨hstep, hroot⟩ := step_of_finish hfinish
        rw [← isEof_iff.mp heof] at hstep
        exact refuses_of_step hreach hstep fun _ => hroot
    exact ⟨hrefuses.expectedToken, ts, hreach.exists_document isDocument_iff (canFinish s),
      .inr ⟨t, htokens, hrefuses⟩⟩

theorem exists_misplaced_of_parse_close :
    parse "<a><b>1</c></a>" = .error ⟨.mismatchedCloseTag "b" "c", 7⟩ ∧
      ∃ (ts : List (Token Symbol)) (t : Token Symbol), CanContinue (ts.map Token.symbol) ∧
        ¬CanContinue (ts.map Token.symbol ++ [t.symbol]) ∧ t.symbol = .closeTag "c" ∧
        (openBehindAll [] (ts.map Token.symbol)).getLast? = some "b" := by
  have hparse : parse "<a><b>1</c></a>" = .error ⟨.mismatchedCloseTag "b" "c", 7⟩ := rfl
  have htokens : (Scan.ofSource "<a><b>1</c></a>" : Scan Symbol).tokens =
      [⟨.openTag "a", 0⟩, ⟨.openTag "b", 3⟩, ⟨.number "1", 6⟩, ⟨.closeTag "c", 7⟩,
        ⟨.closeTag "a", 11⟩] := rfl
  have hfits : ∀ t ∈ (Scan.ofSource "<a><b>1</c></a>" : Scan Symbol).tokens, t.symbol.Fits := by
    rw [htokens]
    simp only [List.forall_mem_cons, Symbol.Fits, true_and]
    exact ⟨by decide, by simp⟩
  obtain ⟨-, ts, hcontinue, ⟨-, hphase⟩ | ⟨t, -, hrefuses⟩⟩ := exists_misplaced_of_parse hfits hparse
  · simp [Cause.phase] at hphase
  · obtain ⟨ht, hopen, -⟩ := (hrefuses.mismatchedCloseTag "b" "c").mp rfl
    exact ⟨hparse, ts, t, hcontinue, hrefuses.stuck, ht, hopen⟩

end Dialects.Markup
