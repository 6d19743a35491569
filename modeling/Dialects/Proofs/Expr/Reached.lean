import Dialects.Proofs.Expr.Calls
import Dialects.Proofs.Expr.Refused
import Dialects.Proofs.Expr.Session
import Dialects.Proofs.Expr.Tiling

/-!
# Calls that are reached

A call that fails for a number that cannot be read has got to that number, by calls that were made one
inside the other. What is got to on the way decides, as a failure is handed on by each of them.
-/

namespace Dialects.Expr

open Climb

variable {table : Table} {c : Call} {s s' : Climber} {n : Nat} {f : Failure}
  {r : Except Failure Double × Climber} {literal : String} {position : Nat}

/-! ## Runs of calls -/

/-- How what is called is read. -/
def Call.run (table : Table) : Call → Climb Double
  | expression power => Climb.expression table power
  | operand o => operandOf (Climb.expression table) o
  | operation left power => Climb.operation (Climb.expression table) left power
  | operations power left => do
    let ahead := (← get).stream.ahead.length
    Climb.operations table (Climb.expression table) power (ahead + 1) left

theorem exists_evaluates_run (table : Table) (c : Call) (s : Climber) :
    ∃ n, Evaluates table c s n ((c.run table).runFrom s) := by
  have hends : Ends table (nestingLimit - s.depth) (Climb.expression table) := ends_expression table _
  cases c with
  | expression power => exact hends power s rfl
  | operand o => exact exists_evaluates_operand hends rfl o
  | operation left power => exact exists_evaluates_operation hends rfl left power
  | operations power left =>
    exact exists_evaluates_operations hends (fun power s => forward_expressionWithin table _ power s) rfl
      (Nat.lt_succ_self _) power left

theorem runFrom_run_eq_iff : (c.run table).runFrom s = r ↔ ∃ n, Evaluates table c s n r := by
  obtain ⟨n, hn⟩ := exists_evaluates_run table c s
  constructor
  · rintro rfl
    exact ⟨n, hn⟩
  · rintro ⟨m, hm⟩
    exact (hm.unique hn).2

/-! ## Calls made by calls -/

/-- Which calls a call makes, and in which states: an expression its operand and then operations, a sign
and a group an expression behind their token, an operation its right operand, and operations one
operation and then more of them. What comes second is called only if the first has succeeded. -/
inductive Calls (table : Table) : Call × Climber → Call × Climber → Prop
  | operand {power : Nat} {s : Climber} {o : Opening} (hdepth : s.depth < nestingLimit)
    (hopening : table.opening (frontKind s.stream.ahead) = some o) :
    Calls table (.expression power, s) (.operand o, s.opened)
  | operations {power : Nat} {s s₁ : Climber} {o : Opening} {left : Double}
    (hdepth : s.depth < nestingLimit) (hopening : table.opening (frontKind s.stream.ahead) = some o)
    (hoperand : ((Call.operand o).run table).runFrom s.opened = (.ok left, s₁)) :
    Calls table (.expression power, s) (.operations power left, s₁)
  | signed {s : Climber} : Calls table (.operand .sign, s) (.expression signPower, s.advanced)
  | group {s : Climber} : Calls table (.operand .group, s) (.expression 0, s.advanced)
  | right {left : Double} {power : Nat} {s : Climber} :
    Calls table (.operation left power, s) (.expression power, s.advanced)
  | operation {power : Nat} {left : Double} {s : Climber} {b : Binding}
    (hbinding : table.binding (frontKind s.stream.ahead) = some b) (hpower : power ≤ b.power) :
    Calls table (.operations power left, s) (.operation left b.rightPower, s)
  | more {power : Nat} {left x : Double} {s s₁ : Climber} {b : Binding}
    (hbinding : table.binding (frontKind s.stream.ahead) = some b) (hpower : power ≤ b.power)
    (hoperation : ((Call.operation left b.rightPower).run table).runFrom s = (.ok x, s₁)) :
    Calls table (.operations power left, s) (.operations power x, s₁)

/-- Whether a call in a state is made in the course of another one. -/
def Reaches (table : Table) : Call × Climber → Call × Climber → Prop := Relation.ReflTransGen (Calls table)

theorem run_eq_error_iff : ((c.run table).runFrom s).1 = .error f ↔
    ∃ n s', Evaluates table c s n (.error f, s') := by
  constructor
  · intro h
    obtain ⟨n, hn⟩ := exists_evaluates_run table c s
    have hrun : (c.run table).runFrom s = (.error f, ((c.run table).runFrom s).2) := Prod.ext h rfl
    exact ⟨n, _, hrun ▸ hn⟩
  · rintro ⟨n, s', hn⟩
    rw [runFrom_run_eq_iff.mpr ⟨n, hn⟩]

theorem run_eq_error_of_calls {p q : Call × Climber} (h : Calls table p q)
    (hq : ((q.1.run table).runFrom q.2).1 = .error f) : ((p.1.run table).runFrom p.2).1 = .error f := by
  obtain ⟨n, s', hq⟩ := run_eq_error_iff.mp hq
  rw [run_eq_error_iff]
  cases h with
  | operand hdepth hopening => exact ⟨n, s', .noOperand hdepth hopening hq⟩
  | operations hdepth hopening hoperand =>
    obtain ⟨m, hm⟩ := runFrom_run_eq_iff.mp hoperand
    -- The level is still open where the failure is met.
    have hopen : 0 < s'.depth := (Nat.succ_pos _).trans_le (hm.keepsDepth.le.trans hq.keepsDepth.le)
    exact ⟨_, s', .expression hdepth hopening hm hq hopen⟩
  | signed => exact ⟨_, s', .signed hq⟩
  | group => exact ⟨_, s', .group hq⟩
  | right => exact ⟨_, s', .operation hq⟩
  | operation hbinding hpower => exact ⟨n, s', .noOperation hbinding hpower hq⟩
  | more hbinding hpower hoperation =>
    obtain ⟨m, hm⟩ := runFrom_run_eq_iff.mp hoperation
    exact ⟨_, s', .operations hbinding hpower hm hq⟩

theorem run_eq_error_of_reaches {p q : Call × Climber} (h : Reaches table p q)
    (hq : ((q.1.run table).runFrom q.2).1 = .error f) : ((p.1.run table).runFrom p.2).1 = .error f := by
  induction h using Relation.ReflTransGen.head_induction_on with
  | refl => exact hq
  | head h _ ih => exact run_eq_error_of_calls h ih

/-! ## Numbers that cannot be read -/

theorem number_eq_error : (Climb.number.runFrom s).1 = .error f ↔
    Double.read? s.stream.current.symbol.lexeme.toList = none ∧
      f = ⟨.malformedNumber s.stream.current.symbol.lexeme, s.stream.current.position⟩ := by
  rw [runFrom_number]
  dsimp only
  split <;> rename_i hread <;> simp [hread, eq_comm]

theorem eq_error_of_goOn {α β : Type} {r : Except Failure α × Climber}
    {g : α → Climber → Except Failure β × Climber} (h : (goOn r g).1 = .error f)
    (hg : ∀ x s', (g x s').1 ≠ .error f) : r.1 = .error f := by
  obtain ⟨e | x, s'⟩ := r
  · simpa using h
  · exact absurd h (hg x s')

theorem applied_ne_malformed (t : Token Symbol) (left x : Double) (s : Climber) :
    (applied t left x s).1 ≠ .error ⟨.malformedNumber literal, position⟩ := by
  unfold applied
  split <;> simp

theorem expect_ne_malformed (kind : Kind) (s : Climber) :
    ((expect kind).runFrom s).1 ≠ .error ⟨.malformedNumber literal, position⟩ := by
  rw [runFrom_expect]
  split_ifs
  · simp
  · cases heof : s.stream.current.isEof <;> simp [Token.insteadOf, heof]

/-- Whether a call reaches a number that fails. -/
def FailsAtNumber (table : Table) (p : Call × Climber) (f : Failure) : Prop :=
  ∃ s', Reaches table p (.operand .number, s') ∧ (Climb.number.runFrom s').1 = .error f

theorem FailsAtNumber.of_calls {p q : Call × Climber} (hq : FailsAtNumber table q f)
    (h : Calls table p q) : FailsAtNumber table p f := by
  obtain ⟨s', hreaches, hnumber⟩ := hq
  exact ⟨s', .head h hreaches, hnumber⟩

theorem failsAtNumber_of_evaluates (h : Evaluates table c s n r)
    (hr : r.1 = .error ⟨.malformedNumber literal, position⟩) :
    FailsAtNumber table (c, s) ⟨.malformedNumber literal, position⟩ := by
  -- No rule but that for numbers fails for one.
  induction h with
  | tooDeep hdepth => simp at hr
  | @unexpected power s hdepth hopening =>
    cases heof : s.stream.current.isEof <;> simp [Token.unexpected, heof] at hr
  | noOperand hdepth hopening hoperand ih => exact (ih hr).of_calls (.operand hdepth hopening)
  | expression hdepth hopening hoperand hoperations hopen ih ih' =>
    have hrun := runFrom_run_eq_iff.mpr ⟨_, hoperand⟩
    exact (ih' (eq_error_of_goOn hr (by simp))).of_calls (.operations hdepth hopening hrun)
  | @number s => exact ⟨s, .refl, hr⟩
  | signed h ih => exact (ih (eq_error_of_goOn hr (by simp))).of_calls .signed
  | group h ih =>
    refine (ih (eq_error_of_goOn hr fun x s' hfails => ?_)).of_calls .group
    exact expect_ne_malformed .closeParen s' (eq_error_of_goOn hfails (by simp))
  | operation h ih =>
    exact (ih (eq_error_of_goOn hr fun x s' => applied_ne_malformed _ _ x s')).of_calls .right
  | stop h => simp at hr
  | noOperation hbinding hpower h ih => exact (ih hr).of_calls (.operation hbinding hpower)
  | operations hbinding hpower hoperation hoperations ih ih' =>
    have hrun := runFrom_run_eq_iff.mpr ⟨_, hoperation⟩
    exact (ih' hr).of_calls (.more hbinding hpower hrun)

theorem run_malformed_iff :
    ((c.run table).runFrom s).1 = .error ⟨.malformedNumber literal, position⟩ ↔
      ∃ s', Reaches table (c, s) (.operand .number, s') ∧ Double.read? literal.toList = none ∧
        s'.stream.current.symbol.lexeme = literal ∧ s'.stream.current.position = position := by
  constructor
  · intro h
    obtain ⟨n, hn⟩ := exists_evaluates_run table c s
    obtain ⟨s', hreaches, hnumber⟩ := failsAtNumber_of_evaluates hn h
    obtain ⟨hread, heq⟩ := number_eq_error.mp hnumber
    obtain ⟨rfl, rfl⟩ := by simpa using heq
    exact ⟨s', hreaches, hread, rfl, rfl⟩
  · rintro ⟨s', hreaches, hread, rfl, rfl⟩
    exact run_eq_error_of_reaches hreaches (number_eq_error.mpr ⟨hread, rfl⟩)

theorem frontKind_of_reaches {power : Nat}
    (h : Reaches table (.expression power, s) (.operand .number, s')) :
    table.opening (frontKind s'.stream.ahead) = some .number := by
  obtain heq | ⟨q, -, hcalls⟩ := Relation.ReflTransGen.cases_tail h
  · simp at heq
  · cases hcalls with
    | operand hdepth hopening => exact hopening

/-! ## States of calls that are reached -/

section

variable {R : Climber → Climber → Prop} (hR : IsKept R)

include hR

theorem keeps_run (table : Table) (c : Call) : Keeps R (c.run table) := by
  have h (power : Nat) : Keeps R (Climb.expression table power) :=
    fun s => keeps_expressionWithin hR table _ power s
  cases c with
  | expression power => exact h power
  | operand o =>
    cases o with
    | number => exact keeps_number hR
    | sign => exact keeps_signed hR h
    | group => exact keeps_group hR h
  | operation left power => exact keeps_operation hR h left power
  | operations power left =>
    exact keeps_bind hR (keeps_get hR) fun s => keeps_operations hR h table power _ left

theorem related_of_calls {p q : Call × Climber} (h : Calls table p q) : R p.2 q.2 := by
  have hopened (s : Climber) : R s s.opened := hR.depth s _
  cases h with
  | operand hdepth hopening => exact hopened _
  | @operations power s s₁ o left hdepth hopening hoperand =>
    have hkept := keeps_run hR table (.operand o) s.opened
    rw [hoperand] at hkept
    exact hR.trans (hopened s) hkept
  | signed => exact hR.advance _
  | group => exact hR.advance _
  | right => exact hR.advance _
  | operation hbinding hpower => exact hR.refl _
  | @more power left x s s₁ b hbinding hpower hoperation =>
    have hkept := keeps_run hR table (.operation left b.rightPower) s
    rwa [hoperation] at hkept

theorem related_of_reaches {p q : Call × Climber} (h : Reaches table p q) : R p.2 q.2 := by
  induction h with
  | refl => exact hR.refl _
  | tail _ hcalls ih => exact hR.trans ih (related_of_calls hR hcalls)

end

/-! ## Texts -/

theorem evaluateTokens_malformed_iff {tokens : List (Token Symbol)} :
    evaluateTokens tokens = .error ⟨.malformedNumber literal, position⟩ ↔
      (((Call.expression 0).run .arithmetic).runFrom (Climber.ofTokens tokens)).1 =
        .error ⟨.malformedNumber literal, position⟩ := by
  have hrun : ((Call.expression 0).run .arithmetic).runFrom (Climber.ofTokens tokens) =
      (expressionWithin .arithmetic nestingLimit 0).runFrom (Climber.ofTokens tokens) := rfl
  rw [evaluateTokens_eq, hrun]
  cases (expressionWithin .arithmetic nestingLimit 0).runFrom (Climber.ofTokens tokens) with
  | mk result s' =>
    cases result with
    | error f => rfl
    | ok x =>
      dsimp only
      split_ifs <;> simp [Token.trailing]

theorem current_mem_of_reaches {source : String} {tokens : List (Token Symbol)}
    (htokens : tokenize source = .ok tokens)
    (h : Reaches table (c, Climber.ofTokens tokens) (.operand .number, s)) :
    s.stream.current ∈ tokens := by
  obtain ⟨eof, rfl⟩ := tokenize_eq_ok htokens
  have hsame : s.stream.tokens = _ := (related_of_reaches isKept_leadsTo h).follows.tokens_eq
  rw [show (Climber.ofTokens _).stream = Stream.ofTokens _ from rfl, Stream.indexed_ofTokens] at hsame
  have hmem := List.mem_of_getElem? s.stream.getElem?_tokens_index
  simpa [hsame, closedTokens, show Symbol.eof.kind = .eof from rfl] using hmem

/-- Evaluating a text fails for a number exactly if it reaches a point alone where an operand is due. -/
theorem evaluate_malformed_iff {source : String} :
    evaluate source = .error ⟨.malformedNumber literal, position⟩ ↔
      literal = "." ∧ ∃ tokens s, tokenize source = .ok tokens ∧
        Reaches .arithmetic (.expression 0, Climber.ofTokens tokens) (.operand .number, s) ∧
        s.stream.current = ⟨⟨.number, "."⟩, position⟩ := by
  cases htokens : (tokenize source : Except Failure (List (Token Symbol))) with
  | error f =>
    obtain ⟨before, d, after, -, -, -, rfl⟩ := exists_foreign_of_failed (ending_of_tokenize_eq_error htokens)
    simp [evaluate, htokens, bind, Except.bind]
  | ok tokens =>
    rw [evaluate_of_tokenize htokens, evaluateTokens_malformed_iff, run_malformed_iff]
    constructor
    · rintro ⟨s, hreaches, hread, rfl, rfl⟩
      have hkind : s.stream.current.symbol.kind = .number := by
        rw [kind_current]
        exact opening_number_iff.mp (frontKind_of_reaches hreaches)
      have hpoint := eq_point_of_mem htokens _ (current_mem_of_reaches htokens hreaches) hkind hread
      exact ⟨by rw [hpoint], tokens, s, rfl, hreaches, by rw [← hpoint]⟩
    · rintro ⟨rfl, _, s, ⟨⟩, hreaches, hcurrent⟩
      exact ⟨s, hreaches, by decide, by rw [hcurrent], by rw [hcurrent]⟩

end Dialects.Expr
