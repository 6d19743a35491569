import Dialects.Proofs.Agree
import Dialects.Proofs.Expr.Climb

/-!
# Positions in arithmetic

A climb over the same symbols goes the same way wherever they stand.
-/

namespace Dialects.Expr

/-- Whether two states have the same symbols ahead of them, the same end, and as many expressions
open. -/
structure Climber.Alike (s s' : Climber) : Prop where
  ahead : s.stream.ahead.map Token.symbol = s'.stream.ahead.map Token.symbol
  endLexeme : s.stream.endLexeme = s'.stream.endLexeme
  depth : s.depth = s'.depth

def SameSymbol (t u : Token Symbol) : Prop := t.symbol = u.symbol

theorem Climber.Alike.current {s s' : Climber} (h : s.Alike s') :
    SameSymbol s.stream.current s'.stream.current := by
  obtain ⟨⟨passed, ahead, endLexeme, endPosition⟩, depth⟩ := s
  obtain ⟨⟨passed', ahead', endLexeme', endPosition'⟩, depth'⟩ := s'
  obtain ⟨hahead, hend, -⟩ := h
  cases ahead <;> cases ahead' <;>
    simp_all [SameSymbol, Stream.current, Stream.endToken]

theorem Climber.Alike.advance {s s' : Climber} (h : s.Alike s') :
    Climber.Alike { s with stream := s.stream.advance } { s' with stream := s'.stream.advance } := by
  obtain ⟨⟨passed, ahead, endLexeme, endPosition⟩, depth⟩ := s
  obtain ⟨⟨passed', ahead', endLexeme', endPosition'⟩, depth'⟩ := s'
  obtain ⟨hahead, hend, hdepth⟩ := h
  cases ahead <;> cases ahead' <;> simp at hahead
  · exact ⟨rfl, hend, hdepth⟩
  · exact ⟨hahead.2, hend, hdepth⟩

theorem Climber.alike_ofTokens {ts us : List (Token Symbol)}
    (h : ts.map Token.symbol = us.map Token.symbol) :
    (Climber.ofTokens ts).Alike (Climber.ofTokens us) := by
  obtain rfl | ⟨ts, t, rfl⟩ := List.eq_nil_or_concat ts
  · obtain rfl : us = [] := List.map_eq_nil_iff.mp h.symm
    exact ⟨rfl, rfl, rfl⟩
  · rw [List.concat_eq_append, List.map_append] at h
    obtain ⟨us, last, rfl, hsymbols, hlast⟩ := List.map_eq_append_iff.mp h.symm
    obtain ⟨u, rfl, hu⟩ := List.map_eq_singleton_iff.mp hlast
    rw [List.concat_eq_append, ofTokens, ofTokens, Stream.ofTokens_concat, Stream.ofTokens_concat, hu]
    split_ifs
    · exact ⟨hsymbols.symm, rfl, rfl⟩
    · exact ⟨by simp [hsymbols, hu], rfl, rfl⟩

namespace Climb

variable {α β γ δ : Type}

/-! ## Steps -/

/-- Whether two readings agree from states that are alike, and get to states that are alike. -/
def Follows (R : α → β → Prop) (m : Climb α) (m' : Climb β) : Prop :=
  ∀ s s' : Climber, s.Alike s' →
    Agree R (m.runFrom s).1 (m'.runFrom s').1 ∧ (m.runFrom s).2.Alike (m'.runFrom s').2

theorem Follows.bind {R : α → β → Prop} {S : γ → δ → Prop} {m : Climb α} {m' : Climb β}
    {f : α → Climb γ} {g : β → Climb δ} (hm : Follows R m m')
    (hf : ∀ a b, R a b → Follows S (f a) (g b)) : Follows S (m >>= f) (m' >>= g) := by
  intro s s' hs
  obtain ⟨hresult, hstate⟩ := hm s s' hs
  rw [runFrom_bind, runFrom_bind]
  cases h : m.runFrom s with
  | mk x t =>
    cases h' : m'.runFrom s' with
    | mk y t' =>
      rw [h, h'] at hresult hstate
      cases hresult with
      | ok hab => exact hf _ _ hab t t' hstate
      | error he => exact ⟨.error he, hstate⟩

theorem follows_pure {R : α → β → Prop} {a : α} {b : β} (h : R a b) :
    Follows R (pure a) (pure b) := fun _ _ hs => ⟨.ok h, hs⟩

theorem follows_throw {R : α → β → Prop} {f g : Failure} (h : f.cause = g.cause) :
    Follows R (throw f) (throw g) := fun _ _ hs => ⟨.error h, hs⟩

theorem follows_get : Follows Climber.Alike get get := fun _ _ hs => ⟨.ok hs, hs⟩

theorem follows_current : Follows SameSymbol current current := fun _ _ hs => ⟨.ok hs.current, hs⟩

theorem follows_advance : Follows SameSymbol advance advance :=
  fun _ _ hs => ⟨.ok hs.current, hs.advance⟩

theorem follows_leave : Follows Eq leave leave :=
  fun _ _ hs => ⟨.ok rfl, hs.ahead, hs.endLexeme, congrArg (· - 1) hs.depth⟩

theorem follows_enter : Follows Eq enter enter := by
  intro s s' hs
  rw [runFrom_enter, runFrom_enter, hs.depth]
  split_ifs
  · exact ⟨.error rfl, hs⟩
  · exact ⟨.ok rfl, hs.ahead, hs.endLexeme, rfl⟩

theorem follows_expect (kind : Kind) : Follows SameSymbol (expect kind) (expect kind) := by
  refine follows_current.bind fun ⟨symbol, p⟩ ⟨_, q⟩ h => ?_
  obtain rfl := h
  dsimp only
  split_ifs
  · exact follows_advance
  · exact follows_throw rfl

/-! ## Operands and operators -/

theorem follows_number : Follows Eq number number := by
  refine follows_advance.bind fun ⟨symbol, p⟩ ⟨_, q⟩ h => ?_
  obtain rfl := h
  dsimp only
  split
  · exact follows_pure rfl
  · exact follows_throw rfl

section

variable {expression : Nat → Climb Double}
  (hexpression : ∀ power, Follows Eq (expression power) (expression power))

include hexpression

theorem follows_signed : Follows Eq (signed expression) (signed expression) := by
  refine follows_advance.bind fun t u h => (hexpression _).bind fun x y hxy => ?_
  rw [hxy, show t.symbol = u.symbol from h]
  exact follows_pure rfl

theorem follows_group : Follows Eq (group expression) (group expression) := by
  refine follows_advance.bind fun _ _ _ => (hexpression 0).bind fun x y hxy => ?_
  exact (follows_expect .closeParen).bind fun _ _ _ => follows_pure hxy

theorem follows_operation {left : Double} (power : Nat) :
    Follows Eq (operation expression left power) (operation expression left power) := by
  refine follows_advance.bind fun ⟨symbol, p⟩ ⟨_, q⟩ h => (hexpression power).bind fun x y hxy => ?_
  obtain rfl := h
  subst hxy
  dsimp only
  split
  · exact follows_pure rfl
  · exact follows_throw rfl

theorem follows_operand (table : Table) :
    Follows Eq (operand table expression) (operand table expression) := by
  refine follows_current.bind fun ⟨symbol, p⟩ ⟨_, q⟩ h => ?_
  obtain rfl := h
  dsimp only
  split
  · exact follows_number
  · exact follows_signed hexpression
  · exact follows_group hexpression
  · exact follows_throw rfl

theorem follows_operations (table : Table) (power count : Nat) (left : Double) :
    Follows Eq (operations table expression power count left)
      (operations table expression power count left) := by
  induction count generalizing left with
  | zero => exact follows_pure rfl
  | succ count ih =>
    refine follows_current.bind fun ⟨symbol, p⟩ ⟨_, q⟩ h => ?_
    obtain rfl := h
    dsimp only
    split
    · exact follows_pure rfl
    · split_ifs
      · exact follows_pure rfl
      · refine (follows_operation hexpression _).bind fun x y hxy => ?_
        rw [hxy]
        exact ih y

end

/-! ## Expressions -/

theorem follows_expressionWithin (table : Table) (levels power : Nat) :
    Follows Eq (expressionWithin table levels power) (expressionWithin table levels power) := by
  induction levels generalizing power with
  | zero => exact follows_current.bind fun _ _ _ => follows_throw rfl
  | succ levels ih =>
    refine follows_enter.bind fun _ _ _ => ?_
    refine (follows_operand ih table).bind fun left left' hleft => ?_
    refine follows_get.bind fun s s' hs => ?_
    have hcount : s.stream.ahead.length = s'.stream.ahead.length := by
      simpa using congrArg List.length hs.ahead
    rw [hleft, hcount]
    exact (follows_operations ih table power _ left').bind fun x y hxy =>
      follows_leave.bind fun _ _ _ => follows_pure hxy

theorem follows_document : Follows Eq document document := by
  refine Follows.bind (R := Eq) (follows_get.bind fun s s' hs => ?_) fun x y hxy => ?_
  · rw [hs.depth]
    exact follows_expressionWithin _ _ _
  · refine follows_current.bind fun ⟨symbol, p⟩ ⟨_, q⟩ h => ?_
    obtain rfl := h
    subst hxy
    dsimp only
    split_ifs
    · exact follows_pure rfl
    · exact follows_throw rfl

end Climb

theorem agree_evaluateTokens {ts us : List (Token Symbol)}
    (h : ts.map Token.symbol = us.map Token.symbol) :
    Agree Eq (evaluateTokens ts) (evaluateTokens us) :=
  (Climb.follows_document _ _ (Climber.alike_ofTokens h)).1

end Dialects.Expr
