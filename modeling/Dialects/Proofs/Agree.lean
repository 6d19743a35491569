import Dialects.Proofs.Reader
import Dialects.Json.Document
import Dialects.Markup.Document

/-!
# Agreement

Two readings agree if both fail, for one cause, or neither does. Where tokens stand is no matter to a
reader, so it reads the same symbols to results that agree.
-/

namespace Dialects

/-- Whether two readings give results that are related, or fail for the same cause wherever it was
met. -/
inductive Agree {α β : Type} (R : α → β → Prop) : Except Failure α → Except Failure β → Prop
  | ok {a : α} {b : β} (h : R a b) : Agree R (.ok a) (.ok b)
  | error {f g : Failure} (h : f.cause = g.cause) : Agree R (.error f) (.error g)

namespace Agree

variable {α β γ δ : Type} {R : α → β → Prop} {S : γ → δ → Prop}

theorem bind {x : Except Failure α} {y : Except Failure β} {f : α → Except Failure γ}
    {g : β → Except Failure δ} (h : Agree R x y) (hf : ∀ a b, R a b → Agree S (f a) (g b)) :
    Agree S (x >>= f) (y >>= g) := by
  cases h with
  | ok h => exact hf _ _ h
  | error h => exact .error h

theorem map {x : Except Failure α} {y : Except Failure β} {f : α → γ} {g : β → δ}
    (h : Agree R x y) (hf : ∀ a b, R a b → S (f a) (g b)) : Agree S (x.map f) (y.map g) := by
  cases h with
  | ok h => exact .ok (hf _ _ h)
  | error h => exact .error h

theorem mapError_eq {x y : Except Failure α} (h : Agree Eq x y) :
    x.mapError Failure.cause = y.mapError Failure.cause := by
  cases h with
  | ok h => rw [h]
  | error h => exact congrArg Except.error h

end Agree

/-! ## Readers -/

namespace Reader

variable {σ τ α : Type} {r : Reader σ τ α}

/-- Whether a reader does the same with a symbol wherever it stands. -/
structure IgnoresPositions (r : Reader σ τ α) : Prop where
  step (s : τ) (symbol : σ) (position position' : Nat) :
    Agree (Agree Eq) (r.step s ⟨symbol, position⟩) (r.step s ⟨symbol, position'⟩)
  finish (s : τ) (position position' : Nat) :
    Agree Eq (r.finish s position) (r.finish s position')

theorem IgnoresPositions.run (hr : r.IgnoresPositions) {ts us : List (Token σ)}
    (h : ts.map Token.symbol = us.map Token.symbol) (position position' : Nat)
    {s s' : Except Failure τ} (hs : Agree Eq s s') :
    Agree Eq (r.run (.eof position) s ts) (r.run (.eof position') s' us) := by
  induction ts generalizing us s s' with
  | nil =>
    obtain rfl : us = [] := List.map_eq_nil_iff.mp h.symm
    refine hs.bind ?_
    rintro s _ rfl
    exact hr.finish s position position'
  | cons t ts ih =>
    obtain ⟨u, us, rfl, hsymbol, hsymbols⟩ := List.map_eq_cons_iff.mp h.symm
    refine hs.bind ?_
    rintro s _ rfl
    obtain ⟨symbol, place⟩ := t
    obtain ⟨symbol', place'⟩ := u
    obtain rfl : symbol' = symbol := hsymbol
    exact (hr.step s symbol' place place').bind fun s s' hs => ih hsymbols.symm hs

end Reader

end Dialects

namespace Dialects.Json

open State

/-! ## Positions in JSON

What a token makes of a state is told by its symbol.
-/

theorem agree_opened (symbol : Symbol) (position position' : Nat) (frames : List Frame)
    (inside : State) : Agree (Agree Eq) (.ok <$> opened ⟨symbol, position⟩ frames inside)
      (.ok <$> opened ⟨symbol, position'⟩ frames inside) := by
  unfold opened
  split_ifs
  · exact .error rfl
  · exact .ok (.ok rfl)

theorem agree_decoded (symbol : Symbol) (position position' : Nat) (literal : String) :
    Agree Eq (decoded ⟨symbol, position⟩ literal) (decoded ⟨symbol, position'⟩ literal) := by
  unfold decoded
  split
  · exact .ok rfl
  · exact .error rfl

theorem agree_startValue (symbol : Symbol) (position position' : Nat) (frames : List Frame) :
    Agree (Agree Eq) (startValue ⟨symbol, position⟩ frames)
      (startValue ⟨symbol, position'⟩ frames) := by
  cases symbol with
  | leftBrace => exact agree_opened _ position position' frames _
  | leftBracket => exact agree_opened _ position position' frames _
  | string text => exact .ok (.ok rfl)
  | number literal =>
    refine .ok ((agree_decoded _ position position' literal).map ?_)
    rintro x _ rfl
    rfl
  | boolean b => exact .ok (.ok rfl)
  | null => exact .ok (.ok rfl)
  | _ => exact .error rfl

theorem agree_startMember (symbol : Symbol) (position position' : Nat) (before : Entries Value)
    (frames : List Frame) : Agree (Agree Eq) (startMember ⟨symbol, position⟩ before frames)
      (startMember ⟨symbol, position'⟩ before frames) := by
  cases symbol with
  | string name => exact .ok (.ok rfl)
  | _ => exact .error rfl

theorem ignoresPositions : reader.IgnoresPositions where
  step s symbol position position' := by
    cases s with
    | value frames => exact agree_startValue symbol position position' frames
    | firstItem frames =>
      cases symbol with
      | rightBracket => exact .ok (.ok rfl)
      | _ =>
        simp only [reader, step]
        exact agree_startValue _ position position' _
    | firstKey frames =>
      cases symbol with
      | rightBrace => exact .ok (.ok rfl)
      | _ =>
        simp only [reader, step]
        exact agree_startMember _ position position' _ _
    | laterKey before frames => exact agree_startMember symbol position position' before frames
    | colon before name frames =>
      cases symbol with
      | colon => exact .ok (.ok rfl)
      | _ => exact .error rfl
    | afterItem before frames =>
      cases symbol with
      | comma => exact .ok (.ok rfl)
      | rightBracket => exact .ok (.ok rfl)
      | _ => exact .error rfl
    | afterMember before frames =>
      cases symbol with
      | comma => exact .ok (.ok rfl)
      | rightBrace => exact .ok (.ok rfl)
      | _ => exact .error rfl
    | root v => exact .error rfl
  finish s position position' := by
    cases s with
    | root v => exact .ok rfl
    | _ => exact .error rfl

end Dialects.Json

namespace Dialects.Markup

open State

/-! ## Positions in markup

What a token makes of a state is told by its symbol.
-/

theorem agree_startValue (symbol : Symbol) (position position' : Nat) (tags : List Tag) :
    Agree (Agree Eq) (startValue ⟨symbol, position⟩ tags) (startValue ⟨symbol, position'⟩ tags) := by
  cases symbol with
  | openTag name =>
    simp only [startValue, opened]
    split_ifs
    · exact .error rfl
    · exact .ok (.ok rfl)
  | string text => exact .ok (.ok rfl)
  | number literal =>
    simp only [startValue, decoded]
    split
    · exact .ok (.ok rfl)
    · exact .ok (.error rfl)
  | boolean value => exact .ok (.ok rfl)
  | null => exact .ok (.ok rfl)
  | _ => exact .error rfl

theorem ignoresPositions : reader.IgnoresPositions where
  step s symbol position position' := by
    cases s with
    | start => exact agree_startValue symbol position position' []
    | inside tag outer =>
      cases symbol with
      | closeTag name =>
        simp only [reader, step]
        split_ifs
        · exact .ok (.ok rfl)
        · exact .error rfl
      | _ =>
        simp only [reader, step]
        exact agree_startValue _ position position' (tag :: outer)
    | root v => exact .error rfl
  finish s position position' := by
    cases s with
    | root v => exact .ok rfl
    | _ => exact .error rfl

end Dialects.Markup
