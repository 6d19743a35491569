import Dialects.Proofs.Expr.Climb
import Dialects.Proofs.Expr.Grammar

/-!
# Rules of a climb

What each rule for an operand or an operator makes of the token in front, and what it leaves to the
expressions inside it.
-/

namespace Dialects.Expr

open Climb

/-! ## The token in front -/

def frontKind (ts : List (Token Symbol)) : Kind := (ts.head?.map (·.symbol.kind)).getD .eof

theorem frontKind_cons (t : Token Symbol) (ts : List (Token Symbol)) :
    frontKind (t :: ts) = t.symbol.kind := rfl

@[simp] theorem kind_current (s : Stream) : s.current.symbol.kind = frontKind s.ahead := by
  obtain ⟨passed, ahead, _, _⟩ := s
  cases ahead <;> rfl

theorem exists_cons_of_frontKind {ts : List (Token Symbol)} {k : Kind} (h : frontKind ts = k)
    (hk : k ≠ .eof) : ∃ t us, ts = t :: us ∧ t.symbol.kind = k := by
  cases ts with
  | nil => exact absurd h.symm hk
  | cons t us => exact ⟨t, us, rfl, h⟩

theorem exists_cons_of_opening {ts : List (Token Symbol)} {o : Opening}
    (h : Table.arithmetic.opening (frontKind ts) = some o) :
    ∃ t us, ts = t :: us ∧ t.symbol.kind = frontKind ts := by
  refine exists_cons_of_frontKind rfl fun hend => ?_
  simp [hend, opening_arithmetic] at h

theorem exists_cons_of_binding {ts : List (Token Symbol)} {b : Binding}
    (h : Table.arithmetic.binding (frontKind ts) = some b) :
    ∃ t us, ts = t :: us ∧ t.symbol.kind = frontKind ts := by
  refine exists_cons_of_frontKind rfl fun hend => ?_
  simp [hend, binding_arithmetic] at h

namespace Climber

def advanced (s : Climber) : Climber := { s with stream := s.stream.advance }

@[simp] theorem depth_advanced (s : Climber) : s.advanced.depth = s.depth := rfl

@[simp] theorem length_ahead_advanced (s : Climber) :
    s.advanced.stream.ahead.length = s.stream.ahead.length - 1 := by
  obtain ⟨⟨passed, ahead, _, _⟩, depth⟩ := s
  cases ahead <;> rfl

section

variable {s : Climber} {t : Token Symbol} {ts : List (Token Symbol)} (h : s.stream.ahead = t :: ts)

include h

theorem current_of_ahead : s.stream.current = t := by
  obtain ⟨⟨passed, ahead, _, _⟩, depth⟩ := s
  obtain rfl : ahead = t :: ts := h
  rfl

theorem ahead_advanced : s.advanced.stream.ahead = ts := by
  obtain ⟨⟨passed, ahead, _, _⟩, depth⟩ := s
  obtain rfl : ahead = t :: ts := h
  rfl

end

end Climber

/-! ## Operands and operators -/

variable {expression : Nat → Climb Double}

theorem runFrom_expect (kind : Kind) (s : Climber) : (expect kind).runFrom s =
    if frontKind s.stream.ahead = kind then (.ok s.stream.current, s.advanced)
    else (.error (s.stream.current.insteadOf kind), s) := by
  rw [expect, runFrom_bind, runFrom_current, goOn_ok, kind_current]
  split_ifs <;> rfl

theorem runFrom_number (s : Climber) : Climb.number.runFrom s =
    (match Double.read? s.stream.current.symbol.lexeme.toList with
      | some x => .ok x
      | none =>
        .error ⟨.malformedNumber s.stream.current.symbol.lexeme, s.stream.current.position⟩,
      s.advanced) := by
  rw [Climb.number, runFrom_bind, runFrom_advance, goOn_ok]
  cases Double.read? s.stream.current.symbol.lexeme.toList <;> rfl

theorem runFrom_signed (s : Climber) : (signed expression).runFrom s =
    goOn ((expression signPower).runFrom s.advanced) fun x s' =>
      (.ok (if frontKind s.stream.ahead = .dash then x.neg else x), s') := by
  rw [signed, runFrom_bind, runFrom_advance, goOn_ok, runFrom_bind, kind_current]
  rfl

theorem runFrom_group (s : Climber) : (group expression).runFrom s =
    goOn ((expression 0).runFrom s.advanced) fun x s' =>
      goOn ((expect .closeParen).runFrom s') fun _ s'' => (.ok x, s'') := by
  rw [group, runFrom_bind, runFrom_advance, goOn_ok, runFrom_bind]
  simp only [runFrom_bind]
  rfl

/-- What a right operand and the token in front of it make of a left one. -/
def applied (t : Token Symbol) (left right : Double) (s : Climber) : Except Failure Double × Climber :=
  match Operator.ofKind? t.symbol.kind with
  | some operator => (.ok (operator.apply left right), s)
  | none => (.error ⟨.unexpectedToken t.shown, t.position⟩, s)

theorem applied_eq {t : Token Symbol} {o : Operator} (h : Operator.ofKind? t.symbol.kind = some o)
    (left right : Double) (s : Climber) : applied t left right s = (.ok (o.apply left right), s) := by
  rw [applied, h]

theorem runFrom_operation (left : Double) (power : Nat) (s : Climber) :
    (operation expression left power).runFrom s =
      goOn ((expression power).runFrom s.advanced) (applied s.stream.current left) := by
  rw [operation, runFrom_bind, runFrom_advance, goOn_ok, runFrom_bind]
  refine congrArg (goOn _) (funext fun right => funext fun s' => ?_)
  unfold applied
  cases Operator.ofKind? s.stream.current.symbol.kind <;> rfl

/-! ## The choice of a rule -/

theorem opening_number_iff {k : Kind} :
    Table.arithmetic.opening k = some .number ↔ k = .number := by
  cases k <;> decide

theorem opening_sign_iff {k : Kind} :
    Table.arithmetic.opening k = some .sign ↔ k = .plus ∨ k = .dash := by
  cases k <;> decide

theorem opening_group_iff {k : Kind} :
    Table.arithmetic.opening k = some .group ↔ k = .openParen := by
  cases k <;> decide

theorem runFrom_operand_cons {table : Table} {s : Climber} {t : Token Symbol}
    {ts : List (Token Symbol)} {o : Opening} (hahead : s.stream.ahead = t :: ts)
    (ho : table.opening t.symbol.kind = some o) :
    (operand table expression).runFrom s = (operandOf expression o).runFrom s :=
  runFrom_operand (by rwa [kind_current, hahead])

end Dialects.Expr
