import Dialects.Proofs.Expr.Rules

/-!
# Calls

An expression is evaluated by rules that call each other, and nothing bounds how often. Every call ends
all the same, also where the end of the tokens, which is never moved over, is an operand or an operator:
there, each call is nested in the one before it, and only so many levels may be open.
-/

namespace Dialects.Expr

open Climb

/-! ## Calls and how they end -/

/-- What is called: an expression whose operators have at least some power, an operand by what it starts
with, an operator and its right operand behind a left one, and as many of them as have at least some
power. -/
inductive Call
  | expression (power : Nat)
  | operand (o : Opening)
  | operation (left : Double) (power : Nat)
  | operations (power : Nat) (left : Double)

namespace Climber

def opened (s : Climber) : Climber := { s with depth := s.depth + 1 }

def closed (s : Climber) : Climber := { s with depth := s.depth - 1 }

@[simp] theorem stream_opened (s : Climber) : s.opened.stream = s.stream := rfl

@[simp] theorem depth_opened (s : Climber) : s.opened.depth = s.depth + 1 := rfl

@[simp] theorem depth_closed (s : Climber) : s.closed.depth = s.depth - 1 := rfl

end Climber

/-- How a call ends: after how many calls of rules for operands and operators, with which result, and in
which state. Only a level that is open is closed. -/
inductive Evaluates (table : Table) :
    Call → Climber → Nat → Except Failure Double × Climber → Prop
  | tooDeep {power : Nat} {s : Climber} (hdepth : nestingLimit ≤ s.depth) :
    Evaluates table (.expression power) s 0
      (.error ⟨.tooDeep nestingLimit, s.stream.current.position⟩, s)
  | unexpected {power : Nat} {s : Climber} (hdepth : s.depth < nestingLimit)
    (hopening : table.opening (frontKind s.stream.ahead) = none) :
    Evaluates table (.expression power) s 0 (.error s.stream.current.unexpected, s.opened)
  | noOperand {power n : Nat} {s s' : Climber} {o : Opening} {f : Failure}
    (hdepth : s.depth < nestingLimit)
    (hopening : table.opening (frontKind s.stream.ahead) = some o)
    (hoperand : Evaluates table (.operand o) s.opened n (.error f, s')) :
    Evaluates table (.expression power) s n (.error f, s')
  | expression {power m n : Nat} {s s₁ : Climber} {o : Opening} {left : Double}
    {r : Except Failure Double × Climber} (hdepth : s.depth < nestingLimit)
    (hopening : table.opening (frontKind s.stream.ahead) = some o)
    (hoperand : Evaluates table (.operand o) s.opened m (.ok left, s₁))
    (hoperations : Evaluates table (.operations power left) s₁ n r) (hopen : 0 < r.2.depth) :
    Evaluates table (.expression power) s (m + n) (goOn r fun x s' => (.ok x, s'.closed))
  | number {s : Climber} : Evaluates table (.operand .number) s 1 (Climb.number.runFrom s)
  | signed {n : Nat} {s : Climber} {r : Except Failure Double × Climber}
    (h : Evaluates table (.expression signPower) s.advanced n r) :
    Evaluates table (.operand .sign) s (n + 1)
      (goOn r fun x s' => (.ok (if frontKind s.stream.ahead = .dash then x.neg else x), s'))
  | group {n : Nat} {s : Climber} {r : Except Failure Double × Climber}
    (h : Evaluates table (.expression 0) s.advanced n r) :
    Evaluates table (.operand .group) s (n + 1)
      (goOn r fun x s' => goOn ((expect .closeParen).runFrom s') fun _ s'' => (.ok x, s''))
  | operation {left : Double} {power n : Nat} {s : Climber} {r : Except Failure Double × Climber}
    (h : Evaluates table (.expression power) s.advanced n r) :
    Evaluates table (.operation left power) s (n + 1) (goOn r (applied s.stream.current left))
  | stop {power : Nat} {left : Double} {s : Climber}
    (h : ∀ b ∈ table.binding (frontKind s.stream.ahead), b.power < power) :
    Evaluates table (.operations power left) s 0 (.ok left, s)
  | noOperation {power n : Nat} {left : Double} {s s' : Climber} {b : Binding} {f : Failure}
    (hbinding : table.binding (frontKind s.stream.ahead) = some b) (hpower : power ≤ b.power)
    (h : Evaluates table (.operation left b.rightPower) s n (.error f, s')) :
    Evaluates table (.operations power left) s n (.error f, s')
  | operations {power m n : Nat} {left x : Double} {s s₁ : Climber} {b : Binding}
    {r : Except Failure Double × Climber}
    (hbinding : table.binding (frontKind s.stream.ahead) = some b) (hpower : power ≤ b.power)
    (hoperation : Evaluates table (.operation left b.rightPower) s m (.ok x, s₁))
    (hoperations : Evaluates table (.operations power x) s₁ n r) :
    Evaluates table (.operations power left) s (m + n) r

section

variable {table : Table} {c : Call} {s s' : Climber} {n n' levels power : Nat}
  {r r' : Except Failure Double × Climber} {left x : Double}

theorem Evaluates.unique (h : Evaluates table c s n r) (h' : Evaluates table c s n' r') :
    n' = n ∧ r' = r := by
  -- The depth, the token in front and the result of the first call inside tell the rules apart.
  induction h generalizing n' r' with
  | tooDeep hdepth =>
    cases h' with
    | tooDeep => exact ⟨rfl, rfl⟩
    | unexpected hdepth' => omega
    | noOperand hdepth' => omega
    | expression hdepth' => omega
  | unexpected hdepth hopening =>
    cases h' with
    | tooDeep hdepth' => omega
    | unexpected => exact ⟨rfl, rfl⟩
    | noOperand _ hopening' => simp [hopening] at hopening'
    | expression _ hopening' => simp [hopening] at hopening'
  | noOperand hdepth hopening hoperand ih =>
    cases h' with
    | tooDeep hdepth' => omega
    | unexpected _ hopening' => simp [hopening] at hopening'
    | noOperand _ hopening' hoperand' =>
      obtain rfl := Option.some.inj (hopening.symm.trans hopening')
      exact ih hoperand'
    | expression _ hopening' hoperand' =>
      obtain rfl := Option.some.inj (hopening.symm.trans hopening')
      exact absurd (ih hoperand').2 (by simp)
  | expression hdepth hopening hoperand hoperations hopen ih ih' =>
    cases h' with
    | tooDeep hdepth' => omega
    | unexpected _ hopening' => simp [hopening] at hopening'
    | noOperand _ hopening' hoperand' =>
      obtain rfl := Option.some.inj (hopening.symm.trans hopening')
      exact absurd (ih hoperand').2 (by simp)
    | expression _ hopening' hoperand' hoperations' =>
      obtain rfl := Option.some.inj (hopening.symm.trans hopening')
      obtain ⟨rfl, heq⟩ := ih hoperand'
      obtain ⟨rfl, rfl⟩ := by simpa using heq
      obtain ⟨rfl, rfl⟩ := ih' hoperations'
      exact ⟨rfl, rfl⟩
  | number =>
    cases h' with
    | number => exact ⟨rfl, rfl⟩
  | signed h ih =>
    cases h' with
    | signed h' =>
      obtain ⟨rfl, rfl⟩ := ih h'
      exact ⟨rfl, rfl⟩
  | group h ih =>
    cases h' with
    | group h' =>
      obtain ⟨rfl, rfl⟩ := ih h'
      exact ⟨rfl, rfl⟩
  | operation h ih =>
    cases h' with
    | operation h' =>
      obtain ⟨rfl, rfl⟩ := ih h'
      exact ⟨rfl, rfl⟩
  | stop h =>
    cases h' with
    | stop => exact ⟨rfl, rfl⟩
    | noOperation hbinding' hpower' => exact absurd (h _ hbinding') (Nat.not_lt.mpr hpower')
    | operations hbinding' hpower' => exact absurd (h _ hbinding') (Nat.not_lt.mpr hpower')
  | noOperation hbinding hpower h ih =>
    cases h' with
    | stop h' => exact absurd (h' _ hbinding) (Nat.not_lt.mpr hpower)
    | noOperation hbinding' _ h' =>
      obtain rfl := Option.some.inj (hbinding.symm.trans hbinding')
      exact ih h'
    | operations hbinding' _ hoperation' =>
      obtain rfl := Option.some.inj (hbinding.symm.trans hbinding')
      exact absurd (ih hoperation').2 (by simp)
  | operations hbinding hpower hoperation hoperations ih ih' =>
    cases h' with
    | stop h' => exact absurd (h' _ hbinding) (Nat.not_lt.mpr hpower)
    | noOperation hbinding' _ h' =>
      obtain rfl := Option.some.inj (hbinding.symm.trans hbinding')
      exact absurd (ih h').2 (by simp)
    | operations hbinding' _ hoperation' hoperations' =>
      obtain rfl := Option.some.inj (hbinding.symm.trans hbinding')
      obtain ⟨rfl, heq⟩ := ih hoperation'
      obtain ⟨rfl, rfl⟩ := by simpa using heq
      obtain ⟨rfl, rfl⟩ := ih' hoperations'
      exact ⟨rfl, rfl⟩

/-! ## Levels -/

/-- Whether a call from so many levels leaves as many open where it succeeds, and no fewer where it
fails, and never too many. -/
structure KeepsDepth (depth : Nat) (r : Except Failure Double × Climber) : Prop where
  eq_of_ok {x : Double} : r.1 = .ok x → r.2.depth = depth
  le : depth ≤ r.2.depth
  le_limit : depth ≤ nestingLimit → r.2.depth ≤ nestingLimit

theorem keepsDepth_self (r : Except Failure Double × Climber) : KeepsDepth r.2.depth r :=
  ⟨fun _ => rfl, le_rfl, id⟩

theorem KeepsDepth.trans {depth : Nat} (h : KeepsDepth depth (.ok x, s')) (h' : KeepsDepth s'.depth r) :
    KeepsDepth depth r := by
  obtain rfl : s'.depth = depth := h.eq_of_ok rfl
  exact h'

theorem KeepsDepth.goOn {depth : Nat} {f : Double → Climber → Except Failure Double × Climber}
    (h : KeepsDepth depth r) (hf : ∀ x s', (f x s').2.depth = s'.depth) :
    KeepsDepth depth (goOn r f) := by
  obtain ⟨e | x, s'⟩ := r
  · exact ⟨fun hok => absurd hok (by simp), h.le, h.le_limit⟩
  · exact h.trans (hf x s' ▸ keepsDepth_self (f x s'))

theorem depth_applied (t : Token Symbol) : (applied t left x s).2.depth = s.depth := by
  unfold applied
  split <;> rfl

theorem depth_number (s : Climber) : (Climb.number.runFrom s).2.depth = s.depth := by
  rw [runFrom_number]
  rfl

theorem depth_expect (kind : Kind) (s : Climber) : ((expect kind).runFrom s).2.depth = s.depth := by
  rw [runFrom_expect]
  split_ifs <;> rfl

theorem Evaluates.keepsDepth (h : Evaluates table c s n r) : KeepsDepth s.depth r := by
  induction h with
  | tooDeep hdepth => exact keepsDepth_self (_, _)
  | unexpected hdepth hopening => exact ⟨by simp, by simp, fun _ => hdepth⟩
  | noOperand hdepth hopening hoperand ih =>
    exact ⟨by simp, (Nat.le_succ _).trans ih.le, fun _ => ih.le_limit hdepth⟩
  | @expression power m n s s₁ o left r hdepth hopening hoperand hoperations hopen ih ih' =>
    -- The level stays open inside, and only a success closes it.
    have hinside := ih.trans ih'
    obtain ⟨e | x, s'⟩ := r
    · exact ⟨by simp, (Nat.le_succ _).trans hinside.le, fun _ => hinside.le_limit hdepth⟩
    · have hclosed : s'.closed.depth = s.depth := by
        rw [Climber.depth_closed, hinside.eq_of_ok rfl]
        rfl
      exact hclosed ▸ keepsDepth_self (.ok x, s'.closed)
  | @number s => exact depth_number s ▸ keepsDepth_self _
  | signed h ih => exact ih.goOn fun _ _ => rfl
  | group h ih =>
    refine ih.goOn fun y s' => ?_
    rw [← depth_expect .closeParen s']
    cases (expect .closeParen).runFrom s' with
    | mk result s'' => cases result <;> rfl
  | operation h ih => exact ih.goOn fun _ _ => depth_applied _
  | stop h => exact keepsDepth_self (_, _)
  | noOperation hbinding hpower h ih => exact ih
  | operations hbinding hpower hoperation hoperations ih ih' => exact ih.trans ih'

/-! ## Every call ends -/

variable {expression : Nat → Climb Double}

theorem ahead_ne_nil_of_operation
    (h : goOn r (applied s.stream.current left) = (.ok x, s')) : s.stream.ahead ≠ [] := by
  -- The end of the tokens is no operator, whatever a table says.
  intro hnil
  obtain ⟨right, s₁, -, happlied⟩ := goOn_eq_ok.mp h
  simp [applied, frontKind, hnil, Operator.ofKind?] at happlied

/-- Whether expressions, with so many levels left to open, are read as calls that end. -/
def Ends (table : Table) (levels : Nat) (expression : Nat → Climb Double) : Prop :=
  ∀ power s, nestingLimit - s.depth = levels →
    ∃ n, Evaluates table (.expression power) s n ((expression power).runFrom s)

theorem exists_evaluates_operand (h : Ends table levels expression)
    (hs : nestingLimit - s.depth = levels) (o : Opening) :
    ∃ n, Evaluates table (.operand o) s n ((operandOf expression o).runFrom s) := by
  cases o with
  | number => exact ⟨1, .number⟩
  | sign =>
    obtain ⟨n, hn⟩ := h signPower s.advanced hs
    exact ⟨n + 1, by rw [operandOf, runFrom_signed]; exact .signed hn⟩
  | group =>
    obtain ⟨n, hn⟩ := h 0 s.advanced hs
    exact ⟨n + 1, by rw [operandOf, runFrom_group]; exact .group hn⟩

theorem exists_evaluates_operation (h : Ends table levels expression)
    (hs : nestingLimit - s.depth = levels) (left : Double) (power : Nat) :
    ∃ n, Evaluates table (.operation left power) s n ((operation expression left power).runFrom s) := by
  obtain ⟨n, hn⟩ := h power s.advanced hs
  exact ⟨n + 1, by rw [runFrom_operation]; exact .operation hn⟩

theorem exists_evaluates_operations (h : Ends table levels expression)
    (hforward : ∀ power, Forward (expression power)) (hs : nestingLimit - s.depth = levels) {count : Nat}
    (hcount : s.stream.ahead.length < count) (power : Nat) (left : Double) :
    ∃ n, Evaluates table (.operations power left) s n
      ((operations table expression power count left).runFrom s) := by
  induction count generalizing s left with
  | zero => omega
  | succ count ih =>
    by_cases hstop : ∀ b ∈ table.binding (frontKind s.stream.ahead), b.power < power
    · exact ⟨0, by rw [runFrom_operations_of_stop (by rwa [kind_current])]; exact .stop hstop⟩
    · push Not at hstop
      obtain ⟨b, hb, hpower⟩ := hstop
      obtain ⟨m, hm⟩ := exists_evaluates_operation h hs left b.rightPower
      have hdepth := hm.keepsDepth
      rw [runFrom_operations_of_go_on (by rwa [kind_current]) hpower]
      cases hrun : (operation expression left b.rightPower).runFrom s with
      | mk result s₁ =>
        rw [hrun] at hm hdepth
        cases result with
        | error f => exact ⟨m, .noOperation hb hpower hm⟩
        | ok x =>
          -- The operation has taken its operator, so fewer tokens are ahead.
          have hahead := ahead_ne_nil_of_operation ((runFrom_operation left _ s).symm.trans hrun)
          have hlt := length_ahead_operation_lt hforward left b.rightPower hahead
          rw [hrun] at hlt
          have hs₁ : s₁.depth = s.depth := hdepth.eq_of_ok rfl
          obtain ⟨n, hn⟩ := ih (s := s₁) (by rwa [hs₁]) (by simp only at hlt; omega) x
          exact ⟨m + n, .operations hb hpower hm hn⟩

theorem ends_expressionWithin (table : Table) (levels : Nat) :
    Ends table levels (expressionWithin table levels) := by
  induction levels with
  | zero =>
    intro power s hs
    exact ⟨0, .tooDeep (by omega)⟩
  | succ levels ih =>
    intro power s hs
    have hdepth : s.depth < nestingLimit := by omega
    -- The rules inside have one level less to open.
    have hopened : nestingLimit - s.opened.depth = levels := by simp only [Climber.depth_opened]; omega
    rw [runFrom_expressionWithin_succ, if_neg (Nat.not_le.mpr hdepth)]
    change ∃ n, Evaluates table (.expression power) s n
      (goOn (goOn ((operand table (expressionWithin table levels)).runFrom s.opened) _) _)
    cases hopening : table.opening (frontKind s.stream.ahead) with
    | none =>
      have hrun : (operand table (expressionWithin table levels)).runFrom s.opened =
          (.error s.stream.current.unexpected, s.opened) :=
        runFrom_operand_of_none (by rwa [kind_current])
      exact ⟨0, by rw [hrun]; exact .unexpected hdepth hopening⟩
    | some o =>
      obtain ⟨m, hm⟩ := exists_evaluates_operand ih hopened o
      rw [runFrom_operand (o := o) (by rwa [kind_current])]
      cases hrun : (operandOf (expressionWithin table levels) o).runFrom s.opened with
      | mk result s₁ =>
        rw [hrun] at hm
        cases result with
        | error f => exact ⟨m, .noOperand hdepth hopening hm⟩
        | ok left =>
          have hs₁ : s₁.depth = s.depth + 1 := hm.keepsDepth.eq_of_ok rfl
          -- The level that was opened is still open behind the operand.
          have hopen : 0 < s₁.depth := by omega
          obtain ⟨n, hn⟩ := exists_evaluates_operations ih (forward_expressionWithin table levels)
            (s := s₁) (by rw [hs₁]; exact hopened) (Nat.lt_succ_self _) power left
          exact ⟨m + n, .expression hdepth hopening hm hn (hopen.trans_le hn.keepsDepth.le)⟩

theorem ends_expression (table : Table) (levels : Nat) :
    Ends table levels (Climb.expression table) :=
  fun power s _ => ends_expressionWithin table (nestingLimit - s.depth) power s rfl

end

end Dialects.Expr
