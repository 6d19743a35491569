import Dialects.Proofs.Agree
import Dialects.Proofs.Json.Refused
import Dialects.Proofs.Located

/-!
# Places of JSON tokens

Where a JSON token stands and where its reading fails, in a text that may be moved.
-/

namespace Dialects.Json

open Dialects.Text

/-! ## Moved texts -/

theorem nextString_moved (n : Nat) (place : Cursor) (cs : List Char) :
    nextString (place.moved n) cs = movedReading n (nextString place cs) := by
  unfold nextString
  cases Literal.string cs with
  | ok spelled => simp [Token.moved]
  | error halt => simp [Failure.moved]

theorem nextNumber_moved (n : Nat) (place : Cursor) :
    nextNumber (place.moved n) = movedReading n (nextNumber place) := by
  unfold nextNumber
  rw [Cursor.rest_moved]
  cases Literal.number? place.rest with
  | some literal => simp [Token.moved]
  | none => simp [Failure.moved]

theorem nextWord_moved (n : Nat) (place : Cursor) (c : Char) :
    nextWord (place.moved n) c = movedReading n (nextWord place c) := by
  simp only [nextWord, Cursor.rest_moved]
  cases Symbol.ofWord? (String.ofList (place.rest.takeWhile isWordChar)) with
  | some symbol => simp [Token.moved]
  | none => simp [Failure.moved]

instance : MovableLexicon Symbol where
  next_moved n c := by
    show next (c.moved n) = movedReading n (next c)
    simp only [next, Cursor.skipBlanks_moved, Cursor.rest_moved]
    split
    · rfl
    · split
      · simp [Token.moved]
      · split_ifs
        · exact nextString_moved n c.skipBlanks _
        · exact nextNumber_moved n c.skipBlanks
        · exact nextWord_moved n c.skipBlanks _
        · rfl

/-! ## Failures inside strings -/

/-- Whether a cause is that of a string which is not closed or has an escape that is none. -/
inductive IsStringFault : Cause → Prop
  | unterminated : IsStringFault .unterminatedString
  | escape (sequence : String) : IsStringFault (.invalidEscape sequence)
  | unicodeEscape (sequence : String) : IsStringFault (.invalidUnicodeEscape sequence)

theorem IsStringFault.phase {cause : Cause} (h : IsStringFault cause) : cause.phase = .lexical := by
  cases h <;> rfl

theorem isStringFault_of_escape {cs : List Char} {cause : Cause} {length : Nat}
    (h : Literal.escape cs = .error (cause, length)) : IsStringFault cause := by
  unfold Literal.escape at h
  split at h
  · obtain ⟨rfl, -⟩ := by simpa using h
    exact .unterminated
  · split at h
    · simp at h
    · obtain ⟨rfl, -⟩ := by simpa using h
      exact .unicodeEscape _
  · split at h
    · simp at h
    · obtain ⟨rfl, -⟩ := by simpa using h
      exact .escape _

theorem place_of_stringBody {n taken : Nat} {text cs : List Char} {halt : Literal.Halt}
    (h : Literal.stringBody n taken text cs = .error halt) : IsStringFault halt.cause ∧
      (halt.place = 0 ∨ ∃ i, halt.place = taken + i ∧ cs[i]? = some '\\') := by
  induction n generalizing taken text cs with
  | zero =>
    obtain rfl := Except.error.inj h
    exact ⟨.unterminated, .inl rfl⟩
  | succ n ih =>
    cases cs with
    | nil =>
      obtain rfl := Except.error.inj h
      exact ⟨.unterminated, .inl rfl⟩
    | cons c cs =>
      simp only [Literal.stringBody, beq_iff_eq] at h
      split_ifs at h with hquote hslash
      · -- An escape fails at its backslash, or the body goes on behind the escape.
        cases hescape : Literal.escape cs with
        | error stop =>
          obtain ⟨cause, length⟩ := stop
          simp only [hescape] at h
          obtain rfl := Except.error.inj h
          exact ⟨isStringFault_of_escape hescape, .inr ⟨0, rfl, by simp [hslash]⟩⟩
        | ok spelled =>
          obtain ⟨d, length⟩ := spelled
          obtain ⟨esc, rest, rfl, -, rfl⟩ := exists_of_escape hescape
          simp only [hescape, Nat.add_sub_cancel, List.drop_left] at h
          obtain ⟨hfault, hzero | ⟨i, hi, hget⟩⟩ := ih h
          · exact ⟨hfault, .inl hzero⟩
          · exact ⟨hfault, .inr ⟨esc.length + 1 + i, by omega, by
              rw [Nat.add_right_comm, List.getElem?_cons_succ, List.getElem?_append_right (by omega)]
              simpa using hget⟩⟩
      · obtain ⟨hfault, hzero | ⟨i, hi, hget⟩⟩ := ih h
        · exact ⟨hfault, .inl hzero⟩
        · exact ⟨hfault, .inr ⟨i + 1, by omega, hget⟩⟩

theorem pointsAt_of_nextString {place c : Cursor} {cs : List Char} {f : Failure}
    (hplace : place.rest = '"' :: cs) (h : nextString place cs = (.error f, c)) :
    IsStringFault f.cause ∧ place.PointsAt f.position := by
  unfold nextString at h
  cases hstring : Literal.string cs with
  | ok spelled => simp [hstring] at h
  | error halt =>
    rw [hstring] at h
    obtain ⟨rfl, -⟩ := by simpa using h
    obtain ⟨hfault, hzero | ⟨i, hi, hget⟩⟩ := place_of_stringBody hstring
    · have hquote : place.rest[halt.place]? = some '"' := by simp [hzero, hplace]
      exact ⟨hfault, Cursor.pointsAt_of_getElem? hquote rfl⟩
    · have hslash : place.rest[halt.place]? = some '\\' := by
        rw [hi, hplace, Nat.add_comm, List.getElem?_cons_succ, hget]
      exact ⟨hfault, Cursor.pointsAt_of_getElem? hslash rfl⟩

/-! ## Places of tokens -/

theorem exists_advance_next (c : Cursor) : ∃ k, (next c).2 = c.skipBlanks.advance k := by
  simp only [next]
  split
  · exact ⟨0, by simp⟩
  · split
    · exact ⟨1, rfl⟩
    · split_ifs
      · unfold nextString
        split <;> exact ⟨_, rfl⟩
      · unfold nextNumber
        split
        · exact ⟨_, rfl⟩
        · exact ⟨0, by simp⟩
      · simp only [nextWord]
        split
        · exact ⟨_, rfl⟩
        · exact ⟨0, by simp⟩
      · exact ⟨0, by simp⟩

theorem pointsAt_of_next {c c' : Cursor} {f : Failure} (h : next c = (.error f, c')) :
    f.cause.phase = .lexical ∧ c.skipBlanks.PointsAt f.position := by
  simp only [next] at h
  split at h
  · simp at h
  · rename_i d rest hrest
    have hhere := Cursor.pointsAt_here (c := c) (by simp [hrest])
    split at h
    · simp at h
    · split_ifs at h with hquote hnumber hword
      · obtain rfl : d = '"' := by simpa using hquote
        obtain ⟨hfault, hpoints⟩ := pointsAt_of_nextString hrest h
        exact ⟨hfault.phase, hpoints⟩
      · unfold nextNumber at h
        split at h
        · simp at h
        · obtain ⟨rfl, -⟩ := by simpa using h
          exact ⟨rfl, hhere⟩
      · simp only [nextWord] at h
        split at h
        · simp at h
        · obtain ⟨rfl, -⟩ := by simpa using h
          exact ⟨rfl, hhere⟩
      · obtain ⟨rfl, -⟩ := by simpa using h
        exact ⟨rfl, hhere⟩

instance : LocatedLexicon Symbol where
  exists_advance := exists_advance_next
  position_eq h := (next_eq_ok h).1
  isEof_iff {c c' t} h := by
    obtain ⟨-, ⟨hs, hrest⟩ | ⟨spelling, rest, hrest, -, hspelled, -⟩⟩ := next_eq_ok h
    · simp [isEof_iff.mpr hs, hrest]
    · have hne := hspelled.isTrimmed.1
      simp [isEof_eq_false hspelled.ne_eof, hrest, hne]
  pointsAt := pointsAt_of_next

/-! ## Failures of the reader -/

theorem failsInPlace : reader.FailsInPlace where
  step {s t f} h := by
    cases refusal_of_step h with
    | unexpected hs ht => exact t.hasFailure_unexpected
    | tooDeep hs ht hlevel => exact t.hasFailure_of_ne (by simp)
    | insteadOf kind hs hroot hkind => exact t.hasFailure_insteadOf kind
    | trailing v hs => exact t.hasFailure_of_ne (by simp)
  decode {s t f} h := by
    obtain ⟨literal, -, -, rfl⟩ := malformed_of_step h
    exact t.hasFailure_of_ne (by simp)
  finish {s position f} h := by
    cases s with
    | root v => simp [reader, State.finish] at h
    | _ => exact (Except.error.inj h).symm

end Dialects.Json
