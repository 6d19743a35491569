import Dialects.Proofs.Json.Accepted

/-!
# Beginnings of JSON documents

Reading never gets stuck behind tokens that it has taken. Wherever it stands, a value or the closing
of what is open leads to a document, so that the tokens taken are the beginning of one.
-/

namespace Dialects.Json

/-- Whether symbols are derived by the grammar with at most as many containers open at a time as the
limit allows. -/
def IsDocument (ss : List Symbol) : Prop := ∃ v, Derives ss v ∧ NestedWithin nestingLimit ss

def CanContinue (ss : List Symbol) : Prop := ∃ more, IsDocument (ss ++ more)

theorem isDocument_iff (ts : List (Token Symbol)) : IsDocument (ts.map Token.symbol) ↔
    ∃ v, reader.run (.eof 0) (.ok (.value [])) ts = .ok v := by
  simp [IsDocument, run_eq_ok_iff]

/-! ## The way out -/

namespace State

theorem canFinish_place (v : Value) (frames : List Frame) : reader.CanFinish (place v frames) := by
  induction frames generalizing v with
  | nil => exact ⟨[], v, rfl⟩
  | cons frame frames ih =>
    cases frame with
    | items before => exact Reader.canFinish_of_step ⟨.rightBracket, 0⟩ rfl (ih _)
    | member before name => exact Reader.canFinish_of_step ⟨.rightBrace, 0⟩ rfl (ih _)

theorem canFinish (s : State) : reader.CanFinish s := by
  have hvalue (frames : List Frame) : reader.CanFinish (value frames) :=
    Reader.canFinish_of_step ⟨.null, 0⟩ rfl (canFinish_place _ frames)
  have hcolon (before : Entries Value) (name : String) (frames : List Frame) :
      reader.CanFinish (colon before name frames) :=
    Reader.canFinish_of_step ⟨.colon, 0⟩ rfl (hvalue _)
  cases s with
  | value frames => exact hvalue frames
  | firstItem frames =>
    exact Reader.canFinish_of_step ⟨.rightBracket, 0⟩ rfl (canFinish_place _ frames)
  | firstKey frames => exact Reader.canFinish_of_step ⟨.rightBrace, 0⟩ rfl (canFinish_place _ frames)
  | laterKey before frames =>
    exact Reader.canFinish_of_step ⟨.string "", 0⟩ rfl (hcolon before "" frames)
  | colon before name frames => exact hcolon before name frames
  | afterItem before frames =>
    exact Reader.canFinish_of_step ⟨.rightBracket, 0⟩ rfl (canFinish_place _ frames)
  | afterMember before frames =>
    exact Reader.canFinish_of_step ⟨.rightBrace, 0⟩ rfl (canFinish_place _ frames)
  | root v => exact canFinish_place v []

end State

/-! ## Tokens taken and refused -/

section

variable {ts : List (Token Symbol)} {s s' : State} {t : Token Symbol}

theorem canContinue_of_reaches (h : reader.Reaches ts s) : CanContinue (ts.map Token.symbol) :=
  h.exists_document isDocument_iff s.canFinish

theorem canContinue_of_step (h : reader.Reaches ts s) (ht : State.step s t = .ok (.ok s')) :
    CanContinue (ts.map Token.symbol ++ [t.symbol]) := by
  have hreach := canContinue_of_reaches (h.step ht)
  rwa [List.map_append] at hreach

theorem not_canContinue_of_step {f : Failure} (h : reader.Reaches ts s)
    (ht : State.step s t = .error f) : ¬CanContinue (ts.map Token.symbol ++ [t.symbol]) :=
  h.not_exists_document isDocument_iff ht

theorem isDocument_iff_of_reaches (h : reader.Reaches ts s) :
    IsDocument (ts.map Token.symbol) ↔ ∃ v, s = .root v := by
  rw [h.document_iff isDocument_iff, show reader.finish s 0 = s.finish 0 from rfl]
  cases s <;> simp [State.finish]

/-! ## Levels -/

/-- How many containers are open. -/
def State.level : State → Nat
  | value frames => frames.length
  | firstItem frames | firstKey frames | laterKey _ frames | colon _ _ frames | afterItem _ frames
  | afterMember _ frames => frames.length + 1
  | root _ => 0

@[simp] theorem State.level_place (v : Value) (frames : List Frame) :
    (place v frames).level = frames.length := by
  rcases frames with _ | ⟨_ | _, frames⟩ <;> rfl

theorem level_of_startValue {frames : List Frame} (h : State.startValue t frames = .ok (.ok s')) :
    t.symbol.isClosing = false ∧ s'.level = frames.length + if t.symbol.isOpening then 1 else 0 := by
  obtain ⟨ht, rfl⟩ | ⟨ht, rfl⟩ | ⟨v, hv, rfl⟩ := startValue_eq_ok h
  · simp [ht, State.level, Symbol.isOpening, Symbol.isClosing]
  · simp [ht, State.level, Symbol.isOpening, Symbol.isClosing]
  · have hbalanced := hv.balanced
    rw [openings_cons, closings_cons] at hbalanced
    obtain ⟨hopen, hclose⟩ | ⟨hopen, hclose⟩ | ⟨hopen, hclose⟩ :=
      t.symbol.opening_or_closing_or_neither <;>
      simp [hopen, hclose, openings, closings] at hbalanced ⊢

theorem level_of_step (h : State.step s t = .ok (.ok s')) :
    s'.level + (if t.symbol.isClosing then 1 else 0) =
      s.level + if t.symbol.isOpening then 1 else 0 := by
  have hstart {frames : List Frame} (h : State.startValue t frames = .ok (.ok s')) :
      s'.level + (if t.symbol.isClosing then 1 else 0) =
        frames.length + if t.symbol.isOpening then 1 else 0 := by
    obtain ⟨hclosing, hlevel⟩ := level_of_startValue h
    simp [hclosing, hlevel]
  cases s with
  | value frames => exact hstart h
  | firstItem frames =>
    by_cases ht : t.symbol = .rightBracket
    · obtain rfl : State.place (.array []) frames = s' := by simpa [State.step, ht] using h
      simp [ht, Symbol.isOpening, Symbol.isClosing]
      rfl
    · exact hstart (by simpa [State.step, ht] using h)
  | root v => simp [State.step] at h
  | _ =>
    cases ht : t.symbol <;> simp [State.step, State.startMember, ht] at h <;> subst h <;>
      simp [Symbol.isOpening, Symbol.isClosing] <;> rfl

theorem openings_eq_of_reaches (h : reader.Reaches ts s) :
    openings (ts.map Token.symbol) = closings (ts.map Token.symbol) + s.level := by
  induction h with
  | start => rfl
  | @step ts s s' t h ht ih =>
    have hlevel := level_of_step ht
    rw [List.map_append, List.map_singleton, openings_append, closings_append, openings_cons,
      closings_cons]
    simp only [openings, closings, List.countP_nil] at ih ⊢
    omega

theorem level_le_of_reaches (h : reader.Reaches ts s) : s.level ≤ nestingLimit := by
  obtain ⟨more, v, -, hnested⟩ := canContinue_of_reaches h
  have hopen := hnested _ (List.prefix_append _ more)
  rw [openings_eq_of_reaches h] at hopen
  omega

end

end Dialects.Json
