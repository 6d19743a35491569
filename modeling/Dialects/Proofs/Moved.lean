import Dialects.Proofs.Agree
import Dialects.Lookahead

/-!
# Moved texts

What stands in a text is moved by a number of bytes when as many are put in front of it. A moved text
is read to the same symbols and values, and its failures are moved along.
-/

namespace Dialects

open Dialects.Text (Cursor)

/-! ## Moving -/

def Text.Cursor.moved (n : Nat) (c : Cursor) : Cursor := ⟨c.offset + n, c.rest⟩

def Failure.moved (n : Nat) (f : Failure) : Failure := ⟨f.cause, f.position + n⟩

def Ending.moved (n : Nat) : Ending → Ending
  | .eof position => .eof (position + n)
  | .failed f => .failed (f.moved n)

@[simp] theorem Text.Cursor.rest_moved (n : Nat) (c : Cursor) : (c.moved n).rest = c.rest := rfl

@[simp] theorem Text.Cursor.offset_moved (n : Nat) (c : Cursor) :
    (c.moved n).offset = c.offset + n := rfl

@[simp] theorem Text.Cursor.advance_moved (n k : Nat) (c : Cursor) :
    (c.moved n).advance k = (c.advance k).moved n := by
  simp [Cursor.advance, Cursor.moved, Nat.add_right_comm]

@[simp] theorem Text.Cursor.skipBlanks_moved (n : Nat) (c : Cursor) :
    (c.moved n).skipBlanks = c.skipBlanks.moved n := by
  simp [Cursor.skipBlanks]

section

variable {σ : Type}

def Token.moved (n : Nat) (t : Token σ) : Token σ := ⟨t.symbol, t.position + n⟩

@[simp] theorem Token.position_moved (n : Nat) (t : Token σ) :
    (t.moved n).position = t.position + n := rfl

def Scan.moved (n : Nat) (s : Scan σ) : Scan σ := ⟨s.tokens.map (.moved n), s.ending.moved n⟩

/-- What has been read, and the cursor behind it, in a moved text. -/
def movedReading (n : Nat) (reading : Except Failure (Token σ) × Cursor) :
    Except Failure (Token σ) × Cursor :=
  ((reading.1.map (.moved n)).mapError (.moved n), reading.2.moved n)

@[simp] theorem movedReading_ok (n : Nat) (t : Token σ) (c : Cursor) :
    movedReading n (.ok t, c) = (.ok (t.moved n), c.moved n) := rfl

@[simp] theorem movedReading_error (n : Nat) (f : Failure) (c : Cursor) :
    movedReading (σ := σ) n (.error f, c) = (.error (f.moved n), c.moved n) := rfl

end

/-! ## Scans -/

/-- Reading does not look at how far into a text it is. -/
class MovableLexicon (σ : Type) {κ : outParam Type} [Lexicon σ κ] : Prop where
  next_moved (n : Nat) (c : Cursor) :
    Lexicon.next (c.moved n) = movedReading n (Lexicon.next (σ := σ) c)

section

variable {σ κ : Type} [Lexicon σ κ] [DecidableEq κ]

@[simp] theorem Token.isEof_moved (n : Nat) (t : Token σ) : (t.moved n).isEof = t.isEof := rfl

theorem Scan.upTo_moved [MovableLexicon σ] (n m : Nat) (c : Cursor) :
    (Scan.upTo m (c.moved n) : Scan σ) = (Scan.upTo m c).moved n := by
  induction m generalizing c with
  | zero => rfl
  | succ m ih =>
    simp only [upTo, MovableLexicon.next_moved]
    obtain ⟨f | t, c'⟩ := Lexicon.next (σ := σ) c
    · rfl
    · cases heof : t.isEof with
      | true => simp [heof, moved, Ending.moved]
      | false => simp [heof, ih, moved, cons]

theorem Scan.ofCursor_moved [MovableLexicon σ] (n : Nat) (c : Cursor) :
    (Scan.ofCursor (c.moved n) : Scan σ) = (Scan.ofCursor c).moved n :=
  upTo_moved n _ c

end

/-! ## Readers -/

/-- Whether a failure lies at a token, and only at the end for want of more text. -/
structure Token.HasFailure {σ κ : Type} [Lexicon σ κ] [DecidableEq κ] (t : Token σ) (f : Failure) :
    Prop where
  position : f.position = t.position
  isEof : f.cause = .unexpectedEof → t.isEof

namespace Token

variable {σ κ : Type} [Lexicon σ κ] [DecidableEq κ] (t : Token σ)

theorem hasFailure_unexpected : t.HasFailure t.unexpected := by
  refine ⟨rfl, fun hcause => ?_⟩
  by_contra heof
  simp [unexpected, heof] at hcause

theorem hasFailure_insteadOf (expected : κ) : t.HasFailure (t.insteadOf expected) := by
  refine ⟨rfl, fun hcause => ?_⟩
  by_contra heof
  simp [insteadOf, heof] at hcause

theorem hasFailure_of_ne {cause : Cause} (h : cause ≠ .unexpectedEof) :
    t.HasFailure ⟨cause, t.position⟩ :=
  ⟨rfl, fun hcause => absurd hcause h⟩

end Token

namespace Reader

variable {σ κ τ α : Type} [Lexicon σ κ] [DecidableEq κ] {r : Reader σ τ α}

/-- Whether what a token or the end is refused for, or cannot be decoded for, lies there. -/
structure FailsInPlace (r : Reader σ τ α) : Prop where
  step {s : τ} {t : Token σ} {f : Failure} : r.step s t = .error f → t.HasFailure f
  decode {s : τ} {t : Token σ} {f : Failure} : r.step s t = .ok (.error f) → t.HasFailure f
  finish {s : τ} {position : Nat} {f : Failure} :
    r.finish s position = .error f → f = ⟨.unexpectedEof, position⟩

theorem step_moved (hr : r.FailsInPlace) (hr' : r.IgnoresPositions) (n : Nat) (s : τ) (t : Token σ) :
    r.step s (t.moved n) = ((r.step s t).map (.mapError (.moved n))).mapError (.moved n) := by
  have hagree := hr'.step s t.symbol t.position (t.position + n)
  change Agree (Agree Eq) (r.step s t) (r.step s (t.moved n)) at hagree
  have hmoved {f g : Failure} (hf : t.HasFailure f) (hg : (t.moved n).HasFailure g)
      (hcause : f.cause = g.cause) : g = f.moved n := by
    obtain ⟨cause, position⟩ := g
    simp only [Failure.moved, hcause, hf.position]
    exact congrArg _ hg.position
  generalize hstep : r.step s t = x at hagree ⊢
  generalize hstep' : r.step s (t.moved n) = y at hagree ⊢
  cases hagree with
  | error hcause =>
    rw [hmoved (hr.step hstep) (hr.step hstep') hcause]
    rfl
  | ok h =>
    cases h with
    | error hcause =>
      rw [hmoved (hr.decode hstep) (hr.decode hstep') hcause]
      rfl
    | ok h =>
      rw [h]
      rfl

theorem finish_moved (hr : r.FailsInPlace) (hr' : r.IgnoresPositions) (n : Nat) (s : τ)
    (position : Nat) : r.finish s (position + n) = (r.finish s position).mapError (.moved n) := by
  have hagree := hr'.finish s position (position + n)
  generalize hfinish : r.finish s position = x at hagree ⊢
  generalize hfinish' : r.finish s (position + n) = y at hagree ⊢
  cases hagree with
  | error hcause =>
    rw [hr.finish hfinish, hr.finish hfinish']
    rfl
  | ok h =>
    rw [h]
    rfl

theorem run_moved (hr : r.FailsInPlace) (hr' : r.IgnoresPositions) (n : Nat) (ending : Ending)
    (state : Except Failure τ) (ts : List (Token σ)) :
    r.run (ending.moved n) (state.mapError (.moved n)) (ts.map (.moved n)) =
      (r.run ending state ts).mapError (.moved n) := by
  induction ts generalizing state with
  | nil =>
    cases ending with
    | failed f => rfl
    | eof position =>
      cases state with
      | error f => rfl
      | ok s => exact finish_moved hr hr' n s position
  | cons t ts ih =>
    cases state with
    | error f => rfl
    | ok s =>
      have hstep := step_moved hr hr' n s t
      cases h : r.step s t with
      | error f =>
        rw [h] at hstep
        rw [run_cons_error r h]
        exact run_cons_error r hstep _
      | ok state =>
        rw [h] at hstep
        rw [run_cons_ok r h, ← ih]
        exact run_cons_ok r hstep _

theorem read_moved (hr : r.FailsInPlace) (hr' : r.IgnoresPositions) (n : Nat) (scan : Scan σ) :
    r.read (scan.moved n) = (r.read scan).mapError (.moved n) :=
  run_moved hr hr' n scan.ending (.ok r.start) scan.tokens

end Reader

end Dialects
