import Mathlib
import Dialects.Expr.Climb

/-!
# Runs of a climb

What each step makes of a state, and that no step goes back in the tokens or changes their end.
-/

namespace Dialects.Expr.Climb

variable {α β : Type}

/-! ## Steps -/

def runFrom (m : Climb α) (s : Climber) : Except Failure α × Climber := m.run s

/-- Goes on from where a reading got to, unless it failed. -/
def goOn (r : Except Failure α × Climber) (f : α → Climber → Except Failure β × Climber) :
    Except Failure β × Climber :=
  match r with
  | (.ok a, s) => f a s
  | (.error e, s) => (.error e, s)

@[simp] theorem goOn_ok (a : α) (s : Climber)
    (f : α → Climber → Except Failure β × Climber) : goOn (.ok a, s) f = f a s := rfl

@[simp] theorem goOn_error (e : Failure) (s : Climber)
    (f : α → Climber → Except Failure β × Climber) : goOn (.error e, s) f = (.error e, s) := rfl

theorem runFrom_bind (m : Climb α) (f : α → Climb β) (s : Climber) :
    (m >>= f).runFrom s = goOn (m.runFrom s) fun a s' => (f a).runFrom s' := by
  have hbind : (m >>= f).runFrom s =
      (ExceptT.bindCont f (m.runFrom s).1 : StateM Climber (Except Failure β)) (m.runFrom s).2 := rfl
  rw [hbind]
  obtain ⟨result, s'⟩ := m.runFrom s
  cases result <;> rfl

theorem goOn_eq_ok {r : Except Failure α × Climber}
    {f : α → Climber → Except Failure β × Climber} {b : β} {s'' : Climber} :
    goOn r f = (.ok b, s'') ↔ ∃ a s', r = (.ok a, s') ∧ f a s' = (.ok b, s'') := by
  obtain ⟨result, s'⟩ := r
  cases result <;> simp

theorem goOn_eq_error {r : Except Failure α × Climber}
    {f : α → Climber → Except Failure β × Climber} {e : Failure} {s'' : Climber} :
    goOn r f = (.error e, s'') ↔
      r = (.error e, s'') ∨ ∃ a s', r = (.ok a, s') ∧ f a s' = (.error e, s'') := by
  obtain ⟨result, s'⟩ := r
  cases result <;> simp

theorem runFrom_pure (a : α) (s : Climber) : (pure a : Climb α).runFrom s = (.ok a, s) := rfl

theorem runFrom_throw (f : Failure) (s : Climber) :
    (throw f : Climb α).runFrom s = (.error f, s) := rfl

theorem runFrom_current (s : Climber) : current.runFrom s = (.ok s.stream.current, s) := rfl

theorem runFrom_advance (s : Climber) :
    advance.runFrom s = (.ok s.stream.current, { s with stream := s.stream.advance }) := rfl

theorem runFrom_enter (s : Climber) : enter.runFrom s =
    if nestingLimit ≤ s.depth then (.error ⟨.tooDeep nestingLimit, s.stream.current.position⟩, s)
    else (.ok (), { s with depth := s.depth + 1 }) := by
  have hget : enter.runFrom s = (if nestingLimit ≤ s.depth then
      (throw ⟨.tooDeep nestingLimit, s.stream.current.position⟩ : Climb Unit)
      else set { s with depth := s.depth + 1 } : Climb Unit).runFrom s := rfl
  rw [hget]
  split_ifs <;> rfl

def operandOf (expression : Nat → Climb Double) : Opening → Climb Double
  | .number => number
  | .sign => signed expression
  | .group => group expression

theorem runFrom_operand {table : Table} {expression : Nat → Climb Double} {s : Climber}
    {o : Opening} (h : table.opening s.stream.current.symbol.kind = some o) :
    (operand table expression).runFrom s = (operandOf expression o).runFrom s := by
  rw [operand, runFrom_bind, runFrom_current, goOn_ok, h]
  cases o <;> rfl

theorem runFrom_operand_of_none {table : Table} {expression : Nat → Climb Double} {s : Climber}
    (h : table.opening s.stream.current.symbol.kind = none) :
    (operand table expression).runFrom s = (.error s.stream.current.unexpected, s) := by
  rw [operand, runFrom_bind, runFrom_current, goOn_ok, h]
  rfl

/-! ## What no step changes -/

/-- Whether a relation between states is kept by moving over a token and by opening and closing
expressions. -/
structure IsKept (R : Climber → Climber → Prop) : Prop where
  refl (s : Climber) : R s s
  trans {s s' s'' : Climber} : R s s' → R s' s'' → R s s''
  advance (s : Climber) : R s { s with stream := s.stream.advance }
  depth (s : Climber) (n : Nat) : R s { s with depth := n }

/-- Whether a relation holds between where a reading starts and where it ends, failed or not. -/
def Keeps (R : Climber → Climber → Prop) (m : Climb α) : Prop := ∀ s, R s (m.runFrom s).2

section

variable {R : Climber → Climber → Prop} (hR : IsKept R)

include hR

theorem keeps_bind {m : Climb α} {f : α → Climb β} (hm : Keeps R m) (hf : ∀ a, Keeps R (f a)) :
    Keeps R (m >>= f) := by
  intro s
  have hs := hm s
  rw [runFrom_bind]
  cases h : m.runFrom s with
  | mk result s' =>
    rw [h] at hs
    cases result with
    | error e => exact hs
    | ok a => exact hR.trans hs (hf a s')

theorem keeps_pure (a : α) : Keeps R (pure a) := fun s => hR.refl s

theorem keeps_throw (f : Failure) : Keeps R (throw f : Climb α) := fun s => hR.refl s

theorem keeps_get : Keeps R get := fun s => hR.refl s

theorem keeps_current : Keeps R current := fun s => hR.refl s

theorem keeps_leave : Keeps R leave := fun s => hR.depth s _

theorem keeps_advance : Keeps R advance := fun s => hR.advance s

theorem keeps_enter : Keeps R enter := by
  intro s
  rw [runFrom_enter]
  split_ifs
  · exact hR.refl s
  · exact hR.depth s _

theorem keeps_expect (kind : Kind) : Keeps R (expect kind) := by
  refine keeps_bind hR (keeps_current hR) fun t => ?_
  split_ifs
  · exact keeps_advance hR
  · exact keeps_throw hR _

theorem keeps_number : Keeps R number := by
  refine keeps_bind hR (keeps_advance hR) fun t => ?_
  split
  · exact keeps_pure hR _
  · exact keeps_throw hR _

section

variable {expression : Nat → Climb Double} (h : ∀ power, Keeps R (expression power))

include h

theorem keeps_signed : Keeps R (signed expression) := by
  refine keeps_bind hR (keeps_advance hR) fun t => ?_
  exact keeps_bind hR (h _) fun x => keeps_pure hR _

theorem keeps_group : Keeps R (group expression) := by
  refine keeps_bind hR (keeps_advance hR) fun t => keeps_bind hR (h _) fun x => ?_
  exact keeps_bind hR (keeps_expect hR _) fun closing => keeps_pure hR x

theorem keeps_operation (left : Double) (power : Nat) :
    Keeps R (operation expression left power) := by
  refine keeps_bind hR (keeps_advance hR) fun t => keeps_bind hR (h _) fun right => ?_
  split
  · exact keeps_pure hR _
  · exact keeps_throw hR _

theorem keeps_operand (table : Table) : Keeps R (operand table expression) := by
  refine keeps_bind hR (keeps_current hR) fun t => ?_
  split
  · exact keeps_number hR
  · exact keeps_signed hR h
  · exact keeps_group hR h
  · exact keeps_throw hR _

theorem keeps_operations (table : Table) (power count : Nat) (left : Double) :
    Keeps R (operations table expression power count left) := by
  induction count generalizing left with
  | zero => exact keeps_pure hR left
  | succ count ih =>
    refine keeps_bind hR (keeps_current hR) fun t => ?_
    split
    · exact keeps_pure hR left
    · split_ifs
      · exact keeps_pure hR left
      · exact keeps_bind hR (keeps_operation hR h _ _) fun y => ih y

end

theorem keeps_expressionWithin (table : Table) (levels power : Nat) :
    Keeps R (expressionWithin table levels power) := by
  induction levels generalizing power with
  | zero => exact keeps_bind hR (keeps_current hR) fun t => keeps_throw hR _
  | succ levels ih =>
    refine keeps_bind hR (keeps_enter hR) fun _ => ?_
    refine keeps_bind hR (keeps_operand hR ih table) fun left => ?_
    refine keeps_bind hR (keeps_get hR) fun s => ?_
    refine keeps_bind hR (keeps_operations hR ih table _ _ _) fun x => ?_
    exact keeps_bind hR (keeps_leave hR) fun _ => keeps_pure hR x

end

/-- Whether a reading leaves the tokens ahead as they are but for some at the front. -/
def Forward (m : Climb α) : Prop := ∀ s, (m.runFrom s).2.stream.ahead <:+ s.stream.ahead

theorem isKept_ahead : IsKept fun s s' => s'.stream.ahead <:+ s.stream.ahead where
  refl _ := List.suffix_rfl
  trans h h' := h'.trans h
  advance s := by
    obtain ⟨⟨passed, ahead, _, _⟩, depth⟩ := s
    cases ahead with
    | nil => exact List.suffix_rfl
    | cons t ts => exact List.suffix_cons t ts
  depth _ _ := List.suffix_rfl

theorem forward_expressionWithin (table : Table) (levels power : Nat) :
    Forward (expressionWithin table levels power) :=
  keeps_expressionWithin isKept_ahead table levels power

theorem isKept_endToken : IsKept fun s s' => s'.stream.endToken = s.stream.endToken where
  refl _ := rfl
  trans h h' := h'.trans h
  advance s := by
    obtain ⟨⟨passed, ahead, _, _⟩, depth⟩ := s
    cases ahead <;> rfl
  depth _ _ := rfl

theorem length_ahead_operation_lt {expression : Nat → Climb Double}
    (h : ∀ power, Forward (expression power)) (left : Double) (power : Nat) {s : Climber}
    (hs : s.stream.ahead ≠ []) :
    ((operation expression left power).runFrom s).2.stream.ahead.length < s.stream.ahead.length := by
  obtain ⟨⟨passed, ahead, _, _⟩, depth⟩ := s
  cases ahead with
  | nil => exact absurd rfl hs
  | cons t ts =>
    rw [operation, runFrom_bind, runFrom_advance]
    refine Nat.lt_succ_of_le (List.IsSuffix.length_le ?_)
    refine keeps_bind isKept_ahead (h power) (fun right => ?_) _
    split
    · exact keeps_pure isKept_ahead _
    · exact keeps_throw isKept_ahead _

/-! ## Operators -/

section

variable {table : Table} {expression : Nat → Climb Double} {power : Nat}

theorem runFrom_operations_of_stop {left : Double} {s : Climber}
    (h : ∀ b ∈ table.binding s.stream.current.symbol.kind, b.power < power) (count : Nat) :
    (operations table expression power count left).runFrom s = (.ok left, s) := by
  cases count with
  | zero => rfl
  | succ count =>
    rw [operations, runFrom_bind, runFrom_current, goOn_ok]
    cases hb : table.binding s.stream.current.symbol.kind with
    | none => exact runFrom_pure _ _
    | some b => simp only [h b hb, if_true, runFrom_pure]

theorem runFrom_operations_of_go_on {left : Double} {s : Climber} {b : Binding}
    (hb : table.binding s.stream.current.symbol.kind = some b) (hp : power ≤ b.power)
    (count : Nat) : (operations table expression power (count + 1) left).runFrom s =
      goOn ((operation expression left b.rightPower).runFrom s) fun y s' =>
        (operations table expression power count y).runFrom s' := by
  rw [operations, runFrom_bind, runFrom_current, goOn_ok]
  simp only [hb, Nat.not_lt.mpr hp, if_false]
  rw [runFrom_bind]

theorem runFrom_operations_eq (hend : table.binding .eof = none)
    (h : ∀ power, Forward (expression power)) {m n : Nat} {left : Double} {s : Climber}
    (hm : s.stream.ahead.length < m) (hn : s.stream.ahead.length < n) :
    (operations table expression power m left).runFrom s =
      (operations table expression power n left).runFrom s := by
  induction m generalizing n left s with
  | zero => omega
  | succ m ih =>
    obtain ⟨n, rfl⟩ := Nat.exists_eq_succ_of_ne_zero (by omega : n ≠ 0)
    by_cases hstop : ∀ b ∈ table.binding s.stream.current.symbol.kind, b.power < power
    · rw [runFrom_operations_of_stop hstop, runFrom_operations_of_stop hstop]
    · push Not at hstop
      obtain ⟨b, hb, hp⟩ := hstop
      -- An operator is no end, so it is one of the tokens ahead.
      have hahead : s.stream.ahead ≠ [] := by
        intro hnil
        simp [Stream.current, hnil, Stream.endToken, hend] at hb
      have hlt := length_ahead_operation_lt h left b.rightPower hahead
      rw [runFrom_operations_of_go_on hb hp, runFrom_operations_of_go_on hb hp]
      cases hrun : (operation expression left b.rightPower).runFrom s with
      | mk result s' =>
        rw [hrun] at hlt
        cases result with
        | error e => rfl
        | ok y => exact ih (by simp only at hlt; omega) (by simp only at hlt; omega)

variable (table expression power) in
/-- Operators of at least some power, as many as come. -/
def allOperations (left : Double) (s : Climber) : Except Failure Double × Climber :=
  (operations table expression power (s.stream.ahead.length + 1) left).runFrom s

theorem allOperations_of_stop {left : Double} {s : Climber}
    (h : ∀ b ∈ table.binding s.stream.current.symbol.kind, b.power < power) :
    allOperations table expression power left s = (.ok left, s) :=
  runFrom_operations_of_stop h _

theorem allOperations_of_go_on (hend : table.binding .eof = none)
    (h : ∀ power, Forward (expression power)) {left : Double} {s : Climber} {b : Binding}
    (hb : table.binding s.stream.current.symbol.kind = some b) (hp : power ≤ b.power) :
    allOperations table expression power left s =
      goOn ((operation expression left b.rightPower).runFrom s)
        (allOperations table expression power) := by
  have hahead : s.stream.ahead ≠ [] := by
    intro hnil
    simp [Stream.current, hnil, Stream.endToken, hend] at hb
  have hlt := length_ahead_operation_lt h left b.rightPower hahead
  rw [allOperations, runFrom_operations_of_go_on hb hp]
  cases hrun : (operation expression left b.rightPower).runFrom s with
  | mk result s' =>
    rw [hrun] at hlt
    cases result with
    | error e => rfl
    | ok y => exact runFrom_operations_eq hend h (by simp only at hlt; omega) (by omega)

end

/-! ## Expressions -/

theorem runFrom_expressionWithin_succ (table : Table) (levels power : Nat) (s : Climber) :
    (expressionWithin table (levels + 1) power).runFrom s =
      if nestingLimit ≤ s.depth then (.error ⟨.tooDeep nestingLimit, s.stream.current.position⟩, s)
      else goOn (goOn ((operand table (expressionWithin table levels)).runFrom
          { s with depth := s.depth + 1 }) (allOperations table (expressionWithin table levels) power))
        fun x s' => (.ok x, { s' with depth := s'.depth - 1 }) := by
  rw [expressionWithin, runFrom_bind, runFrom_enter]
  split_ifs
  · rfl
  · rw [goOn_ok, runFrom_bind]
    cases (operand table (expressionWithin table levels)).runFrom { s with depth := s.depth + 1 } with
    | mk result s₁ =>
      cases result with
      | error e => rfl
      | ok left =>
        rw [goOn_ok, goOn_ok, runFrom_bind, show (get : Climb Climber).runFrom s₁ = (.ok s₁, s₁) from rfl,
          goOn_ok, runFrom_bind]
        rfl

theorem runFrom_expressionWithin_eq_ok {table : Table} {levels power : Nat} {s s' : Climber}
    {x : Double} : (expressionWithin table levels power).runFrom s = (.ok x, s') ↔
      ∃ below, levels = below + 1 ∧ s.depth < nestingLimit ∧ ∃ left s₁ s₂,
        (operand table (expressionWithin table below)).runFrom { s with depth := s.depth + 1 } =
          (.ok left, s₁) ∧
        allOperations table (expressionWithin table below) power left s₁ = (.ok x, s₂) ∧
        s' = { s₂ with depth := s₂.depth - 1 } := by
  cases levels with
  | zero => simp [expressionWithin, runFrom_bind, runFrom_current, runFrom_throw]
  | succ levels =>
    rw [runFrom_expressionWithin_succ]
    split_ifs with hdepth
    · simp [Nat.not_lt.mpr hdepth]
    · simp only [goOn_eq_ok]
      constructor
      · rintro ⟨y, s₂, ⟨left, s₁, hleft, hoperations⟩, heq⟩
        obtain ⟨rfl, rfl⟩ := by simpa using heq
        exact ⟨levels, rfl, by omega, left, s₁, s₂, hleft, hoperations, rfl⟩
      · rintro ⟨below, hlevels, -, left, s₁, s₂, hleft, hoperations, rfl⟩
        obtain rfl := Nat.succ.inj hlevels
        exact ⟨x, s₂, ⟨left, s₁, hleft, hoperations⟩, rfl⟩

end Dialects.Expr.Climb
