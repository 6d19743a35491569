import Dialects.Proofs.Expr.Calls

/-!
# Calls are few

Each call of a rule takes a token, unless only the end is left. There, an operand that succeeds is a
number, no operation succeeds, and what fails has nested at most two calls into each level.
-/

namespace Dialects.Expr

open Climb

namespace Climber

/-- How many more calls can succeed: one for each token ahead and one at the end behind them, or none if
only the end is left. -/
def remaining (s : Climber) : Nat := s.stream.ahead.length + min s.stream.ahead.length 1

def levelsLeft (s : Climber) : Nat := nestingLimit - s.depth

end Climber

variable {table : Table} {s s' : Climber} {n power : Nat} {o : Opening} {x : Double}
  {r : Except Failure Double × Climber}

/-! ## Expressions at the end -/

theorem Evaluates.exists_operand (h : Evaluates table (.expression power) s n (.ok x, s')) :
    s.depth < nestingLimit ∧ ∃ o m left s₁, table.opening (frontKind s.stream.ahead) = some o ∧
      Evaluates table (.operand o) s.opened m (.ok left, s₁) := by
  generalize hr : (Except.ok x, s') = r at h
  cases h with
  | tooDeep hdepth => simp at hr
  | unexpected hdepth hopening => simp at hr
  | noOperand hdepth hopening hoperand => simp at hr
  | expression hdepth hopening hoperand hoperations hopen =>
    exact ⟨hdepth, _, _, _, _, hopening, hoperand⟩

theorem Evaluates.exists_expression (h : Evaluates table (.operand o) s n (.ok x, s'))
    (ho : o ≠ .number) :
    ∃ power m y s₁, Evaluates table (.expression power) s.advanced m (.ok y, s₁) := by
  generalize hr : (Except.ok x, s') = r at h
  cases h with
  | number => exact absurd rfl ho
  | signed h =>
    obtain ⟨y, s₁, rfl, -⟩ := goOn_eq_ok.mp hr.symm
    exact ⟨_, _, _, _, h⟩
  | group h =>
    obtain ⟨y, s₁, rfl, -⟩ := goOn_eq_ok.mp hr.symm
    exact ⟨_, _, _, _, h⟩

theorem Evaluates.opening_eof (h : Evaluates table (.expression power) s n (.ok x, s'))
    (hend : s.stream.ahead = []) : table.opening .eof = some .number := by
  induction hlevels : nestingLimit - s.depth generalizing power s n x s' with
  | zero =>
    obtain ⟨hdepth, -⟩ := h.exists_operand
    omega
  | succ levels ih =>
    obtain ⟨hdepth, o, m, left, s₁, hopening, hoperand⟩ := h.exists_operand
    have heof : table.opening .eof = some o := by rwa [hend] at hopening
    -- Any other operand starts with one more expression here, until too many are open.
    by_cases ho : o = .number
    · rwa [ho] at heof
    · obtain ⟨power', m', y, s₂, hinner⟩ := hoperand.exists_expression ho
      have hend' : s.opened.advanced.stream.ahead = [] := by
        rw [← List.length_eq_zero_iff, Climber.length_ahead_advanced, Climber.stream_opened, hend]
        rfl
      exact ih hinner hend' (by simp only [Climber.depth_advanced, Climber.depth_opened]; omega)

/-! ## Counting -/

/-- Whether an operand is called where the table has it start. -/
def Call.IsDue (table : Table) (s : Climber) : Call → Prop
  | .operand o => table.opening (frontKind s.stream.ahead) = some o
  | _ => True

/-- What the calls inside a call that succeeds use up, with what remains behind it. -/
def Call.budget (s : Climber) : Call → Nat
  | .expression _ | .operand _ => s.stream.ahead.length + 1
  | .operation _ _ | .operations _ _ => s.remaining

/-- How many calls there are inside one that fails. -/
def Call.limit (s : Climber) : Call → Nat
  | .expression _ => s.stream.ahead.length + 2 * s.levelsLeft
  | .operand _ => s.stream.ahead.length + 2 * s.levelsLeft + 2
  | .operation _ _ | .operations _ _ => s.remaining + 2 * s.levelsLeft + 1

/-- Whether so many calls stay within a budget, with what remains where they succeed, or else a limit. -/
structure StaysWithin (budget limit n : Nat) (r : Except Failure Double × Climber) : Prop where
  ok {x : Double} {s' : Climber} : r = (.ok x, s') → n + s'.remaining ≤ budget
  error {f : Failure} {s' : Climber} : r = (.error f, s') → n ≤ limit

section

variable {left : Double} {m : Nat} {s₁ : Climber} {f : Failure}

theorem staysWithin_noOperand (hdepth : s.depth < nestingLimit)
    (h : StaysWithin ((Call.operand o).budget s.opened) ((Call.operand o).limit s.opened) n (.error f, s')) :
    StaysWithin ((Call.expression power).budget s) ((Call.expression power).limit s) n (.error f, s') := by
  have hn := h.error rfl
  refine ⟨by simp, fun _ => ?_⟩
  simp only [Call.limit, Climber.levelsLeft, Climber.stream_opened, Climber.depth_opened] at hn ⊢
  omega

theorem staysWithin_expression (hdepth : s.depth < nestingLimit) (hs₁ : s₁.depth = s.depth + 1)
    (hm : StaysWithin ((Call.operand o).budget s.opened) ((Call.operand o).limit s.opened) m
      (.ok left, s₁))
    (hn : StaysWithin ((Call.operations power left).budget s₁) ((Call.operations power left).limit s₁) n
      r) :
    StaysWithin ((Call.expression power).budget s) ((Call.expression power).limit s) (m + n)
      (goOn r fun x s' => (.ok x, s'.closed)) := by
  have hm := hm.ok rfl
  simp only [Call.budget, Climber.stream_opened] at hm
  -- The operand leaves to the operators what it has not used up.
  obtain ⟨e | y, s'⟩ := r
  · have hn := hn.error rfl
    refine ⟨by simp, fun _ => ?_⟩
    simp only [Call.limit, Climber.levelsLeft] at hn ⊢
    omega
  · have hn : n + s'.remaining ≤ s₁.remaining := hn.ok rfl
    refine ⟨fun hr => ?_, by simp⟩
    obtain ⟨-, rfl⟩ := by simpa using hr
    have hclosed : s'.closed.remaining = s'.remaining := rfl
    simp only [Call.budget]
    omega

theorem staysWithin_number (s : Climber) : StaysWithin ((Call.operand .number).budget s)
    ((Call.operand .number).limit s) 1 (Climb.number.runFrom s) := by
  have hbehind : (Climb.number.runFrom s).2 = s.advanced := by rw [runFrom_number]
  refine ⟨fun hr => ?_, fun _ => ?_⟩
  · rw [hr] at hbehind
    obtain rfl := hbehind
    simp only [Call.budget, Climber.remaining, Climber.length_ahead_advanced]
    omega
  · simp only [Call.limit]
    omega

theorem staysWithin_behind {g : Double → Climber → Except Failure Double × Climber}
    (h : Evaluates table (.expression power) s.advanced n r)
    (hn : StaysWithin ((Call.expression power).budget s.advanced) ((Call.expression power).limit s.advanced)
      n r) (hg : ∀ x s', (g x s').2.remaining ≤ s'.remaining) :
    StaysWithin (max s.stream.ahead.length 1 + 1) (max s.stream.ahead.length 1 + 2 * s.levelsLeft) (n + 1)
      (goOn r g) := by
  obtain ⟨e | x, s'⟩ := r
  · have hn := hn.error rfl
    refine ⟨by simp, fun _ => ?_⟩
    simp only [Call.limit, Climber.levelsLeft, Climber.length_ahead_advanced, Climber.depth_advanced] at hn ⊢
    omega
  · -- The expression was not too deep, so there is a level that pays for a failure behind it.
    obtain ⟨hdepth, -⟩ := h.exists_operand
    have hn := hn.ok rfl
    have hremaining := hg x s'
    simp only [Call.budget, Climber.length_ahead_advanced] at hn
    refine ⟨fun hr => ?_, fun _ => ?_⟩
    · rw [goOn_ok] at hr
      rw [hr] at hremaining
      simp only at hremaining
      omega
    · simp only [Climber.levelsLeft, Climber.depth_advanced] at hdepth ⊢
      omega

theorem staysWithin_operand {o : Opening} (ho : o ≠ .number) (hdue : (Call.operand o).IsDue table s)
    (h : Evaluates table (.operand o) s n r)
    (hn : StaysWithin (max s.stream.ahead.length 1 + 1) (max s.stream.ahead.length 1 + 2 * s.levelsLeft) n
      r) : StaysWithin ((Call.operand o).budget s) ((Call.operand o).limit s) n r := by
  refine ⟨fun hr => ?_, fun hr => ?_⟩
  · subst hr
    -- At the end, the expression inside would make the end a number, and it is due as something else.
    have hahead : s.stream.ahead ≠ [] := by
      intro hnil
      obtain ⟨power, m, y, s₁, hinner⟩ := h.exists_expression ho
      have hnil' : s.advanced.stream.ahead = [] := by simp [← List.length_eq_zero_iff, hnil]
      rw [Call.IsDue, hnil] at hdue
      exact ho (Option.some.inj (hdue.symm.trans (hinner.opening_eof hnil')))
    have hpos := List.length_pos_of_ne_nil hahead
    have hn := hn.ok rfl
    simp only [Call.budget]
    omega
  · have hn := hn.error hr
    simp only [Call.limit]
    omega

theorem remaining_applied (t : Token Symbol) (left x : Double) (s : Climber) :
    (applied t left x s).2.remaining ≤ s.remaining := by
  unfold applied
  split <;> exact le_rfl

theorem remaining_expect (kind : Kind) (s : Climber) :
    ((expect kind).runFrom s).2.remaining ≤ s.remaining := by
  rw [runFrom_expect]
  split_ifs
  · change s.advanced.remaining ≤ s.remaining
    simp only [Climber.remaining, Climber.length_ahead_advanced]
    omega
  · exact le_rfl

theorem staysWithin_operation
    (hn : StaysWithin (max s.stream.ahead.length 1 + 1) (max s.stream.ahead.length 1 + 2 * s.levelsLeft) n
      (goOn r (applied s.stream.current left))) :
    StaysWithin ((Call.operation left power).budget s) ((Call.operation left power).limit s) n
      (goOn r (applied s.stream.current left)) := by
  refine ⟨fun hr => ?_, fun hr => ?_⟩
  · -- An operation that succeeds has taken a token.
    have hpos := List.length_pos_of_ne_nil (ahead_ne_nil_of_operation hr)
    have hremaining : s.remaining = s.stream.ahead.length + min s.stream.ahead.length 1 := rfl
    have hn := hn.ok hr
    simp only [Call.budget]
    omega
  · have hn := hn.error hr
    simp only [Call.limit, Climber.remaining]
    omega

theorem staysWithin_operations {b : Binding} (hs₁ : s₁.depth = s.depth)
    (hm : StaysWithin ((Call.operation left b.rightPower).budget s)
      ((Call.operation left b.rightPower).limit s) m (.ok x, s₁))
    (hn : StaysWithin ((Call.operations power x).budget s₁) ((Call.operations power x).limit s₁) n r) :
    StaysWithin ((Call.operations power left).budget s) ((Call.operations power left).limit s) (m + n) r := by
  have hm : m + s₁.remaining ≤ s.remaining := hm.ok rfl
  refine ⟨fun hr => ?_, fun hr => ?_⟩
  · have hn := hn.ok hr
    simp only [Call.budget] at hn ⊢
    omega
  · have hn := hn.error hr
    simp only [Call.limit, Climber.levelsLeft, hs₁] at hn ⊢
    omega

end

theorem Evaluates.staysWithin {c : Call} (h : Evaluates table c s n r) (hc : c.IsDue table s) :
    StaysWithin (c.budget s) (c.limit s) n r := by
  induction h with
  | tooDeep hdepth => exact ⟨by simp, by simp⟩
  | unexpected hdepth hopening => exact ⟨by simp, by simp⟩
  | noOperand hdepth hopening hoperand ih => exact staysWithin_noOperand hdepth (ih hopening)
  | expression hdepth hopening hoperand hoperations hopen ih ih' =>
    exact staysWithin_expression hdepth (hoperand.keepsDepth.eq_of_ok rfl) (ih hopening) (ih' trivial)
  | number => exact staysWithin_number _
  | signed h ih =>
    exact staysWithin_operand (by simp) hc (.signed h)
      (staysWithin_behind h (ih trivial) fun _ _ => le_rfl)
  | group h ih =>
    refine staysWithin_operand (by simp) hc (.group h) (staysWithin_behind h (ih trivial) fun y s' => ?_)
    -- The closing parenthesis may take a token, but calls nothing.
    have hle := remaining_expect .closeParen s'
    cases hrun : (expect .closeParen).runFrom s' with
    | mk result s'' =>
      rw [hrun] at hle
      cases result <;> exact hle
  | operation h ih =>
    exact staysWithin_operation (staysWithin_behind h (ih trivial) (remaining_applied _ _))
  | stop h =>
    refine ⟨fun hr => ?_, by simp⟩
    obtain ⟨-, rfl⟩ := by simpa using hr
    simp [Call.budget]
  | noOperation hbinding hpower h ih => exact ⟨by simp, (ih trivial).error⟩
  | operations hbinding hpower hoperation hoperations ih ih' =>
    exact staysWithin_operations (hoperation.keepsDepth.eq_of_ok rfl) (ih trivial) (ih' trivial)

/-! ## Termination -/

/-- From whichever state and with whatever table, reading an expression ends, in one way only, after no
more calls than there are tokens ahead and two for each level that is left. -/
theorem exists_evaluates_expression (table : Table) (power : Nat) (s : Climber) :
    ∃ calls ≤ s.stream.ahead.length + 2 * (nestingLimit - s.depth),
      Evaluates table (.expression power) s calls ((Climb.expression table power).runFrom s) ∧
      ∀ calls' r, Evaluates table (.expression power) s calls' r →
        calls' = calls ∧ r = (Climb.expression table power).runFrom s := by
  obtain ⟨calls, h⟩ := ends_expressionWithin table (nestingLimit - s.depth) power s rfl
  refine ⟨calls, ?_, h, fun calls' r h' => h.unique h'⟩
  have hwithin := h.staysWithin trivial
  cases hrun : (expressionWithin table (nestingLimit - s.depth) power).runFrom s with
  | mk result s' =>
    rw [hrun] at h hwithin
    cases result with
    | error f => exact hwithin.error rfl
    | ok x =>
      -- The end may be read as one number more, which the level of the expression makes up for.
      obtain ⟨hdepth, -⟩ := h.exists_operand
      have hcalls := hwithin.ok rfl
      simp only [Call.budget] at hcalls
      omega

end Dialects.Expr
