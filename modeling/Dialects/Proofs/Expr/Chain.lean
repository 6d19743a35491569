import Dialects.Proofs.Expr.Evaluate
import Dialects.Proofs.Expr.Split

/-!
# Reading chains

Under every table of operators, climbing powers takes the operators in front that are tight enough
and gives the value of the chain split at its loosest operators.
-/

namespace Dialects.Expr

open Climb

/-! ## Moving over tokens -/

/-- The state behind tokens that are ahead. -/
def Climber.past (s : Climber) (ts : List (Token Symbol)) : Climber :=
  { s with stream := { s.stream with
      passed := ts.reverse ++ s.stream.passed, ahead := s.stream.ahead.drop ts.length } }

@[simp] theorem Climber.depth_past (s : Climber) (ts : List (Token Symbol)) :
    (s.past ts).depth = s.depth := rfl

theorem Climber.past_append (s : Climber) (ts us : List (Token Symbol)) :
    s.past (ts ++ us) = (s.past ts).past us := by
  simp [past]

theorem Climber.ahead_past {s : Climber} {ts rest : List (Token Symbol)}
    (h : s.stream.ahead = ts ++ rest) : (s.past ts).stream.ahead = rest := by
  simp [past, h]

theorem Climber.advanced_eq_past {s : Climber} {t : Token Symbol} {ts : List (Token Symbol)}
    (h : s.stream.ahead = t :: ts) : s.advanced = s.past [t] := by
  obtain ⟨⟨passed, ahead, endLexeme, endPosition⟩, depth⟩ := s
  obtain rfl : ahead = t :: ts := h
  rfl

theorem runFrom_operation_eq_ok_iff {expression : Nat → Climb Double} {power : Nat} {x y : Double}
    {s s' : Climber} {t : Token Symbol} {ts : List (Token Symbol)} {o : Operator}
    (hahead : s.stream.ahead = t :: ts) (ho : Operator.ofKind? t.symbol.kind = some o) :
    (operation expression y power).runFrom s = (.ok x, s') ↔
      ∃ z, (expression power).runFrom (s.past [t]) = (.ok z, s') ∧ o.apply y z = x := by
  rw [runFrom_operation, goOn_eq_ok, Climber.current_of_ahead hahead, Climber.advanced_eq_past hahead]
  simp [applied_eq ho, and_comm]

/-! ## Reading a chain -/

section

variable {table : Table} {bind : Operator → Binding}

/-- An operand and all operators of at least some power behind it. -/
def climb (table : Table) (levels m : Nat) (s : Climber) : Except Failure Double × Climber :=
  goOn ((operand table (expressionWithin table levels)).runFrom s)
    (allOperations table (expressionWithin table levels) m)

/-- Whether the operator in front, if there is one, takes all of some links to its left. -/
def TakesAll (table : Table) (bind : Operator → Binding) (links : List Link)
    (ts : List (Token Symbol)) : Prop :=
  ∀ b ∈ table.binding (frontKind ts), ∀ k ∈ links, b.leftPower ≤ (bind k.operator).power

/-- Whether a climb through a chain comes to `result`, which is the value of a tree behind the chain
or fails, and goes on from there with the operators that follow. -/
def IsClimbed (table : Table) (bind : Operator → Binding) (chain : Chain) (tree : Tree) : Prop :=
  ∀ (levels m : Nat) (s : Climber) (rest : List (Token Symbol)),
    s.stream.ahead = chain.tokens ++ rest → levels = nestingLimit - s.depth →
    (∀ k ∈ chain.links, m ≤ (bind k.operator).power) → TakesAll table bind chain.links rest →
    ∃ result, (∀ x s', result = (.ok x, s') ↔
        tree.value? = some x ∧ tree.depth ≤ levels ∧ s' = s.past chain.tokens) ∧
      climb table levels m s = goOn result (allOperations table (expressionWithin table levels) m)

theorem IsClimbed.runFrom_eq_ok_iff {chain : Chain} {tree : Tree}
    (h : IsClimbed table bind chain tree) {levels m : Nat} {s : Climber} (x : Double) (s' : Climber)
    {rest : List (Token Symbol)} (hahead : s.stream.ahead = chain.tokens ++ rest)
    (hlevels : levels = nestingLimit - s.depth)
    (hm : ∀ k ∈ chain.links, m ≤ (bind k.operator).power)
    (htakes : TakesAll table bind chain.links rest)
    (hlooser : ∀ b ∈ table.binding (frontKind rest), b.power < m) :
    (expressionWithin table levels m).runFrom s = (.ok x, s') ↔
      tree.value? = some x ∧ tree.depth < levels ∧ s' = s.past chain.tokens := by
  -- No operator behind the chain is tight enough to go on with.
  have hstop (y : Double) (below : Nat) :
      allOperations table (expressionWithin table below) m y
        ({ s with depth := s.depth + 1 }.past chain.tokens) =
      (.ok y, { s with depth := s.depth + 1 }.past chain.tokens) := by
    refine allOperations_of_stop ?_
    rwa [kind_current, Climber.ahead_past (s := { s with depth := s.depth + 1 }) hahead]
  rw [runFrom_expressionWithin_eq_ok]
  constructor
  · rintro ⟨below, rfl, hdepth, left, s₁, s₂, hleft, hoperations, rfl⟩
    obtain ⟨result, hresult, hclimb⟩ :=
      h below m { s with depth := s.depth + 1 } rest hahead (by simp only; omega) hm htakes
    rw [climb, hleft, goOn_ok, hoperations, eq_comm, goOn_eq_ok] at hclimb
    obtain ⟨y, s₃, hy, hrest⟩ := hclimb
    obtain ⟨hvalue, hle, rfl⟩ := (hresult y s₃).mp hy
    rw [hstop] at hrest
    obtain ⟨rfl, rfl⟩ := by simpa using hrest
    exact ⟨hvalue, by omega, rfl⟩
  · rintro ⟨hvalue, hlt, rfl⟩
    obtain ⟨below, rfl⟩ := Nat.exists_eq_succ_of_ne_zero (by omega : levels ≠ 0)
    obtain ⟨result, hresult, hclimb⟩ :=
      h below m { s with depth := s.depth + 1 } rest hahead (by simp only; omega) hm htakes
    rw [(hresult x _).mpr ⟨hvalue, by omega, rfl⟩, goOn_ok, hstop, climb, goOn_eq_ok] at hclimb
    obtain ⟨left, s₁, hleft, hoperations⟩ := hclimb
    exact ⟨below, rfl, by omega, left, s₁, _, hleft, hoperations, rfl⟩

theorem isClimbed_number (htable : table.Binds bind) (n : Numeral) :
    IsClimbed table bind ⟨n, []⟩ (.number n.lexeme) := by
  intro levels m s rest hahead _ _ _
  have hahead₁ : s.stream.ahead = n.token :: rest := hahead
  refine ⟨Climb.number.runFrom s, fun x s' => ?_, ?_⟩
  · rw [runFrom_number, Climber.current_of_ahead hahead₁, Climber.advanced_eq_past hahead₁]
    cases hread : Double.read? n.token.symbol.lexeme.toList with
    | none =>
      have hvalue : (Tree.number n.lexeme).value? = none := hread
      simp [hvalue]
    | some y =>
      have hvalue : (Tree.number n.lexeme).value? = some y := hread
      simp [hvalue, Tree.depth, Chain.tokens, eq_comm]
  · rw [climb, runFrom_operand_cons hahead₁ htable.number]
    rfl

theorem Table.Binds.binding_token (htable : table.Binds bind) (link : Link) :
    table.binding link.token.symbol.kind = some (bind link.operator) := by
  rw [htable.binding]
  simp [Link.token]

theorem Table.Binds.exists_of_binding (htable : table.Binds bind) {k : Kind} {b : Binding}
    (hb : table.binding k = some b) : ∃ o, Operator.ofKind? k = some o ∧ bind o = b := by
  rwa [htable.binding, Option.map_eq_some_iff] at hb

theorem runFrom_operation_of_isClimbed (htable : table.Binds bind)
    (hshared : SharesAssociativity bind) {link : Link} {after : List Link} {r : Tree}
    (hr : IsClimbed table bind ⟨link.operand, after⟩ r)
    (hafter : ∀ k ∈ after, (bind link.operator).rightPower ≤ (bind k.operator).power)
    {levels : Nat} {s : Climber} (x y : Double) (s' : Climber) {rest : List (Token Symbol)}
    (hahead : s.stream.ahead = link.token :: (Chain.tokens ⟨link.operand, after⟩ ++ rest))
    (hlevels : levels = nestingLimit - s.depth) (htakes : TakesAll table bind (link :: after) rest) :
    (operation (expressionWithin table levels) y (bind link.operator).rightPower).runFrom s =
        (.ok x, s') ↔
      ∃ z, r.value? = some z ∧ r.depth < levels ∧ link.operator.apply y z = x ∧
        s' = s.past (link.token :: Chain.tokens ⟨link.operand, after⟩) := by
  -- What is too loose for the operation is too loose for its right operand.
  have hlooser : ∀ b ∈ table.binding (frontKind rest), b.power < (bind link.operator).rightPower := by
    intro b hb
    obtain ⟨o, -, rfl⟩ := htable.exists_of_binding hb
    exact (hshared.power_lt_rightPower_iff link.operator o).mpr (htakes _ hb link (by simp))
  have hahead₁ : s.stream.ahead = [link.token] ++ (Chain.tokens ⟨link.operand, after⟩ ++ rest) :=
    hahead
  have hright (z : Double) := hr.runFrom_eq_ok_iff z s' (Climber.ahead_past hahead₁) hlevels hafter
    (fun b hb k hk => htakes b hb k (List.mem_cons_of_mem _ hk)) hlooser
  rw [runFrom_operation_eq_ok_iff hahead (Operator.ofKind?_kind link.operator)]
  simp only [hright, ← Climber.past_append, List.singleton_append]
  grind

theorem isClimbed_operation (htable : table.Binds bind) (hshared : SharesAssociativity bind)
    {first : Numeral} {before after : List Link} {link : Link} {l r : Tree}
    (hloosest : IsLoosest bind before link after) (hl : IsClimbed table bind ⟨first, before⟩ l)
    (hr : IsClimbed table bind ⟨link.operand, after⟩ r) :
    IsClimbed table bind ⟨first, before ++ link :: after⟩ (.operation link.operator l r) := by
  intro levels m s rest hahead hlevels hm htakes
  rw [Chain.tokens_append, List.append_assoc, List.cons_append] at hahead
  -- The operator of the split is too loose for the left part, which ends in front of it.
  have hfront : TakesAll table bind before
      (link.token :: (Chain.tokens ⟨link.operand, after⟩ ++ rest)) := by
    intro b hb
    obtain rfl := Option.some.inj ((htable.binding_token link).symm.trans hb)
    exact hloosest.1
  obtain ⟨left, hleft, hclimb⟩ := hl levels m s _ hahead hlevels
    (fun k hk => hm k (List.mem_append_left _ hk)) hfront
  have hahead₁ := Climber.ahead_past hahead
  have hoperation (x y : Double) (s' : Climber) :=
    runFrom_operation_of_isClimbed htable hshared hr hloosest.2 x y s' hahead₁ hlevels
      fun b hb k hk => htakes b hb k (List.mem_append_right _ hk)
  refine ⟨goOn left fun y s₁ => (operation (expressionWithin table levels) y
    (bind link.operator).rightPower).runFrom s₁, fun x s' => ?_, ?_⟩
  · rw [goOn_eq_ok, Chain.tokens_append, Climber.past_append]
    constructor
    · rintro ⟨y, s₁, hy, hrun⟩
      obtain ⟨hvalue, hle, rfl⟩ := (hleft y s₁).mp hy
      obtain ⟨z, hvalue', hlt, rfl, rfl⟩ := (hoperation x y s').mp hrun
      refine ⟨by simp [Tree.value?, hvalue, hvalue'], ?_, rfl⟩
      simp only [Tree.depth]
      omega
    · rintro ⟨hvalue, hle, rfl⟩
      obtain ⟨y, z, hy, hz, rfl⟩ :
          ∃ y z, l.value? = some y ∧ r.value? = some z ∧ link.operator.apply y z = x := by
        simpa [Tree.value?, Option.bind_eq_some_iff] using hvalue
      simp only [Tree.depth] at hle
      exact ⟨y, _, (hleft y _).mpr ⟨hy, by omega, rfl⟩,
        (hoperation _ y _).mpr ⟨z, hz, by omega, rfl, rfl⟩⟩
  · -- The climb goes on with the operator, which is as tight as is asked for.
    rw [hclimb]
    obtain ⟨f | y, s₁⟩ := left
    · rfl
    · obtain ⟨-, -, rfl⟩ := (hleft y s₁).mp rfl
      have hend : table.binding .eof = none := htable.binding .eof
      rw [goOn_ok, goOn_ok, allOperations_of_go_on hend (forward_expressionWithin _ _)
        (by rw [kind_current, hahead₁]; exact htable.binding_token link)
        (hm link (List.mem_append_right _ (List.mem_cons_self ..)))]

theorem Splits.isClimbed (htable : table.Binds bind) (hshared : SharesAssociativity bind)
    {chain : Chain} {tree : Tree} (h : Splits bind chain tree) :
    IsClimbed table bind chain tree := by
  induction h with
  | number n => exact isClimbed_number htable n
  | last hassociativity hbefore hafter hl hr ihl ihr =>
    have hloosest := (isLoosest_of_left hassociativity).mpr ⟨hbefore, hafter⟩
    exact isClimbed_operation htable hshared hloosest ihl ihr
  | first hassociativity hbefore hafter hl hr ihl ihr =>
    have hloosest := (isLoosest_of_right hassociativity).mpr ⟨hbefore, hafter⟩
    exact isClimbed_operation htable hshared hloosest ihl ihr

theorem exists_rest_of_upTo (htable : table.Binds bind) (m : Nat) (chain : Chain)
    {rest : List (Token Symbol)} (hend : frontKind rest = .eof) :
    ∃ rest', chain.tokens ++ rest = (chain.upTo bind m).tokens ++ rest' ∧
      ∀ b ∈ table.binding (frontKind rest'), b.power < m := by
  obtain ⟨first, links⟩ := chain
  refine ⟨(links.dropWhile fun l => m ≤ (bind l.operator).power).flatMap
    (fun l => [l.token, l.operand.token]) ++ rest, ?_, ?_⟩
  · rw [Chain.upTo, Chain.tokens, Chain.tokens, List.cons_append, List.cons_append,
      ← List.append_assoc, ← List.flatMap_append, List.takeWhile_append_dropWhile]
  · cases hdrop : links.dropWhile fun l => m ≤ (bind l.operator).power with
    | nil =>
      have hnone : table.binding .eof = none := htable.binding .eof
      simp [hend, hnone]
    | cons link after =>
      have hloose := List.head_dropWhile_not (fun l : Link => decide (m ≤ (bind l.operator).power))
        (by rw [hdrop]; exact List.cons_ne_nil link after)
      intro b hb
      obtain rfl := Option.some.inj ((htable.binding_token link).symm.trans hb)
      simpa [hdrop] using hloose

end

/-- An expression among numbers and operators takes the longest beginning whose operators have at
least the power asked for, and stops right behind it. It gives the value of the tree that splits
this beginning, unless a number cannot be read or the tree is nested too deep. -/
theorem expression_eq_ok_iff_splits {table : Table} {bind : Operator → Binding}
    (htable : table.Binds bind) (hshared : SharesAssociativity bind) (m : Nat) (chain : Chain)
    {s s' : Climber} {rest : List (Token Symbol)} {x : Double}
    (hahead : s.stream.ahead = chain.tokens ++ rest) (hend : frontKind rest = .eof) :
    (Climb.expression table m).runFrom s = (.ok x, s') ↔
      ∃ tree, Splits bind (chain.upTo bind m) tree ∧ tree.value? = some x ∧
        s.depth + tree.depth < nestingLimit ∧ s' = s.past (chain.upTo bind m).tokens := by
  obtain ⟨rest', hrest, hlooser⟩ := exists_rest_of_upTo htable m chain hend
  rw [hrest] at hahead
  have htight : ∀ k ∈ (chain.upTo bind m).links, m ≤ (bind k.operator).power := by
    intro k hk
    simpa using List.mem_takeWhile_imp hk
  -- Behind the beginning stands an operator that is looser than all of its own, or none.
  have htakes : TakesAll table bind (chain.upTo bind m).links rest' := by
    intro b hb k hk
    obtain ⟨o, -, rfl⟩ := htable.exists_of_binding hb
    have hlt := (hlooser _ hb).trans_le (htight k hk)
    unfold Binding.leftPower
    split <;> omega
  have hiff (tree : Tree) (h : Splits bind (chain.upTo bind m) tree) :=
    (h.isClimbed htable hshared).runFrom_eq_ok_iff x s' hahead rfl htight htakes hlooser
  have hrun : (Climb.expression table m).runFrom s =
      (expressionWithin table (nestingLimit - s.depth) m).runFrom s := rfl
  rw [hrun]
  constructor
  · intro hok
    obtain ⟨tree, htree, -⟩ := existsUnique_splits hshared (chain.upTo bind m)
    obtain ⟨hvalue, hlt, hs'⟩ := (hiff tree htree).mp hok
    exact ⟨tree, htree, hvalue, by omega, hs'⟩
  · rintro ⟨tree, htree, hvalue, hlt, hs'⟩
    exact (hiff tree htree).mpr ⟨hvalue, by omega, hs'⟩

/-- Differences that group to the right and bind tighter than all other operators. -/
def rightMinus : Operator → Binding
  | .sub => ⟨20, .right⟩
  | _ => ⟨10, .left⟩

/-- The chain `8 - 3 - 2`. -/
def differences : Chain :=
  ⟨⟨"8", 0⟩, [⟨.sub, "-", 2, ⟨"3", 4⟩⟩, ⟨.sub, "-", 6, ⟨"2", 8⟩⟩]⟩

/-- Of `8 - 3 - 2 + 1` the differences are read, with `3 - 2` first. -/
theorem expression_eq_ok_of_rightMinus :
    (Climb.expression ((Table.empty.withOpening .number .number).withOperators rightMinus) 15).runFrom
        (Climber.ofTokens
          (Chain.tokens ⟨differences.first, differences.links ++ [⟨.add, "+", 10, ⟨"1", 12⟩⟩]⟩)) =
      (.ok ⟨0x401c000000000000⟩,
        (Climber.ofTokens
          (Chain.tokens ⟨differences.first, differences.links ++ [⟨.add, "+", 10, ⟨"1", 12⟩⟩]⟩)).past
        differences.tokens) := by
  have hnumber : (Table.empty.withOpening .number .number).opening .number = some .number := rfl
  have htable := Table.binds_withOperators hnumber (fun _ _ => rfl) rightMinus
  have hshared : SharesAssociativity rightMinus := by
    intro o p
    cases o <;> cases p <;> decide
  have hahead : (Climber.ofTokens (Chain.tokens ⟨differences.first,
      differences.links ++ [⟨.add, "+", 10, ⟨"1", 12⟩⟩]⟩)).stream.ahead =
      Chain.tokens ⟨differences.first, differences.links ++ [⟨.add, "+", 10, ⟨"1", 12⟩⟩]⟩ ++ [] := rfl
  have htree : Splits rightMinus differences
      (.operation .sub (.number "8") (.operation .sub (.number "3") (.number "2"))) := by
    have hequal : (rightMinus .sub).rightPower ≤ (rightMinus .sub).power := by decide
    refine splits_iff.mpr
      (.inr ⟨[], _, _, _, _, rfl, ⟨by simp, by simpa using hequal⟩, .number _, ?_, rfl⟩)
    exact splits_iff.mpr (.inr ⟨[], _, [], _, _, rfl, ⟨by simp, by simp⟩, .number _, .number _, rfl⟩)
  exact (expression_eq_ok_iff_splits htable hshared 15 _ hahead rfl).mpr
    ⟨_, htree, by decide, by decide, rfl⟩

end Dialects.Expr
