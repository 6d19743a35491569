import Dialects.Proofs.Expr.Evaluate

/-!
# Faults of trees

Every group, right operand and signed operand is read as an expression of its own and takes a level. A
text that the grammar derives fails at the first number that lies on a level too many or cannot be read.
-/

namespace Dialects.Expr

open Climb

/-! ## Where numbers lie -/

/-- A number in a tree: how many groups it lies in, and how many right and signed operands. -/
structure Placed where
  lexeme : String
  groups : Nat
  operands : Nat

namespace Placed

def depth (n : Placed) : Nat := n.groups + n.operands

def inGroup (n : Placed) : Placed := { n with groups := n.groups + 1 }

def inOperand (n : Placed) : Placed := { n with operands := n.operands + 1 }

/-- What a number fails with where it has so many levels. -/
def fault? (levels : Nat) (n : Placed) : Option Cause :=
  if levels ≤ n.depth then some (.tooDeep nestingLimit)
  else if (Double.read? n.lexeme.toList).isSome then none
  else some (.malformedNumber n.lexeme)

variable {levels : Nat} {n : Placed}

theorem depth_inGroup : n.inGroup.depth = n.depth + 1 := Nat.add_right_comm _ _ _

theorem depth_inOperand : n.inOperand.depth = n.depth + 1 := rfl

theorem fault?_inGroup : n.inGroup.fault? (levels + 1) = n.fault? levels := by
  refine if_congr ?_ rfl rfl
  rw [depth_inGroup, Nat.add_le_add_iff_right]

theorem fault?_inOperand : n.inOperand.fault? (levels + 1) = n.fault? levels := by
  refine if_congr ?_ rfl rfl
  rw [depth_inOperand, Nat.add_le_add_iff_right]

theorem fault?_of_isSome (h : (Double.read? n.lexeme.toList).isSome) :
    n.fault? levels = if levels ≤ n.depth then some (.tooDeep nestingLimit) else none := by
  simp [fault?, h]

theorem fault?_eq_tooDeep_iff : n.fault? levels = some (.tooDeep nestingLimit) ↔ levels ≤ n.depth := by
  unfold fault?
  split_ifs with hdepth <;> simp [hdepth]

theorem isSome_of_fault?_eq_none (h : n.fault? levels = none) :
    (Double.read? n.lexeme.toList).isSome := by
  unfold fault? at h
  split_ifs at h with hdepth hread
  exact hread

end Placed

namespace Tree

/-- The numbers of a tree, as they follow one another. -/
def numbers : Tree → List Placed
  | number lexeme => [⟨lexeme, 0, 0⟩]
  | signed _ operand => operand.numbers.map .inOperand
  | group inner => inner.numbers.map .inGroup
  | operation _ left right => left.numbers ++ right.numbers.map .inOperand

/-- What a tree fails with, if anything, where it has so many levels. -/
def fault? (levels : Nat) (tree : Tree) : Option Cause :=
  tree.numbers.findSome? (Placed.fault? levels)

theorem numbers_ne_nil (tree : Tree) : tree.numbers ≠ [] := by
  induction tree with
  | number lexeme => simp [numbers]
  | signed negative operand ih => simpa [numbers] using ih
  | group inner ih => simpa [numbers] using ih
  | operation operator left right ihl ihr => simp [numbers, ihl]

variable {levels : Nat}

theorem fault?_zero (tree : Tree) : tree.fault? 0 = some (.tooDeep nestingLimit) := by
  obtain ⟨n, ns, hnumbers⟩ := List.exists_cons_of_ne_nil tree.numbers_ne_nil
  have hn : n.fault? 0 = some (.tooDeep nestingLimit) :=
    Placed.fault?_eq_tooDeep_iff.mpr (Nat.zero_le _)
  rw [fault?, hnumbers, List.findSome?_cons, hn]

theorem fault?_number (lexeme : String) : (number lexeme).fault? (levels + 1) =
    if (Double.read? lexeme.toList).isSome then none else some (.malformedNumber lexeme) := by
  simp [fault?, numbers, Placed.fault?, Placed.depth]

theorem fault?_signed (negative : Bool) (operand : Tree) :
    (signed negative operand).fault? (levels + 1) = operand.fault? levels := by
  rw [fault?, numbers, List.findSome?_map]
  exact congrArg (List.findSome? · _) (funext fun n => Placed.fault?_inOperand)

theorem fault?_group (inner : Tree) : (group inner).fault? (levels + 1) = inner.fault? levels := by
  rw [fault?, numbers, List.findSome?_map]
  exact congrArg (List.findSome? · _) (funext fun n => Placed.fault?_inGroup)

theorem fault?_operation (operator : Operator) (left right : Tree) :
    (operation operator left right).fault? (levels + 1) =
      (left.fault? (levels + 1)).or (right.fault? levels) := by
  rw [fault?, numbers, List.findSome?_append, List.findSome?_map]
  exact congrArg (fun f => (left.fault? (levels + 1)).or (List.findSome? f right.numbers))
    (funext fun n => Placed.fault?_inOperand)

theorem fault?_eq_none_iff {tree : Tree} :
    tree.fault? levels = none ↔ tree.value?.isSome ∧ tree.depth < levels := by
  induction tree generalizing levels with
  | number lexeme =>
    cases levels with
    | zero => simp [fault?_zero]
    | succ levels => simp [fault?_number, value?, depth, Option.isSome_iff_ne_none]
  | signed negative operand ih =>
    cases levels with
    | zero => simp [fault?_zero]
    | succ levels =>
      rw [fault?_signed, ih]
      simp [value?, depth, Nat.add_comm 1]
  | group inner ih =>
    cases levels with
    | zero => simp [fault?_zero]
    | succ levels =>
      rw [fault?_group, ih]
      simp [value?, depth, Nat.add_comm 1]
  | operation operator left right ihl ihr =>
    cases levels with
    | zero => simp [fault?_zero]
    | succ levels =>
      have hvalue : (operation operator left right).value?.isSome ↔
          left.value?.isSome ∧ right.value?.isSome := by
        simp [value?, Option.isSome_iff_exists, Option.bind_eq_some_iff]
      have hdepth : (operation operator left right).depth < levels + 1 ↔
          left.depth < levels + 1 ∧ right.depth < levels := by
        simp only [depth]
        omega
      rw [fault?_operation, Option.or_eq_none_iff, ihl, ihr, hvalue, hdepth]
      tauto

theorem fault?_eq_tooDeep_iff {tree : Tree} :
    tree.fault? levels = some (.tooDeep nestingLimit) ↔
      ∃ before n after, tree.numbers = before ++ n :: after ∧ levels ≤ n.depth ∧
        ∀ m ∈ before, (Double.read? m.lexeme.toList).isSome := by
  unfold fault?
  constructor
  · intro h
    obtain ⟨before, n, after, hnumbers, hn, hbefore⟩ := List.findSome?_eq_some_iff.mp h
    exact ⟨before, n, after, hnumbers, Placed.fault?_eq_tooDeep_iff.mp hn,
      fun m hm => Placed.isSome_of_fault?_eq_none (hbefore m hm)⟩
  · rintro ⟨before, n, after, hnumbers, hn, hbefore⟩
    rw [hnumbers, List.findSome?_append]
    cases hfault : before.findSome? (Placed.fault? levels) with
    | none =>
      rw [List.findSome?_cons, Placed.fault?_eq_tooDeep_iff.mpr hn]
      rfl
    | some cause =>
      -- A number in front that can be read can only be too deep itself.
      obtain ⟨m, hm, hcause⟩ := List.exists_of_findSome?_eq_some hfault
      rw [Placed.fault?_of_isSome (hbefore m hm)] at hcause
      split_ifs at hcause
      exact hcause.symm

end Tree

/-! ## What is derived fails with its fault -/

/-- Whether reading symbols of a tree that has a fault fails with it, wherever no tighter operator
follows. -/
def IsFaulted (c : Category) (ss : List Symbol) (tree : Tree) : Prop :=
  ∀ (levels power : Nat) (s : Climber) (ts rest : List (Token Symbol)) (cause : Cause),
    s.stream.ahead = ts ++ rest → ts.map Token.symbol = ss → tree.fault? (levels + 1) = some cause →
    s.depth + levels = nestingLimit → power ≤ c.tightness → Fits c rest →
    ∃ position s', climbFrom levels power s = (.error ⟨cause, position⟩, s')

theorem IsFaulted.expression {c : Category} {ss : List Symbol} {tree : Tree} (h : IsFaulted c ss tree)
    {levels power : Nat} {s : Climber} {ts rest : List (Token Symbol)} {cause : Cause}
    (hahead : s.stream.ahead = ts ++ rest) (hts : ts.map Token.symbol = ss)
    (hfault : tree.fault? levels = some cause) (hdepth : s.depth + levels = nestingLimit)
    (hpower : power ≤ c.tightness) (hfits : Fits c rest) : ∃ position s',
      (expressionWithin .arithmetic levels power).runFrom s = (.error ⟨cause, position⟩, s') := by
  cases levels with
  | zero =>
    rw [Tree.fault?_zero] at hfault
    obtain rfl := Option.some.inj hfault
    exact ⟨s.stream.current.position, s, rfl⟩
  | succ levels =>
    obtain ⟨position, s', hclimb⟩ := h levels power { s with depth := s.depth + 1 } ts rest cause hahead
      hts hfault (by simp only; omega) hpower hfits
    refine ⟨position, s', ?_⟩
    rw [climbFrom] at hclimb
    rw [runFrom_expressionWithin_succ, if_neg (by omega), hclimb, goOn_error]

theorem isFaulted_number {s : Symbol} (hs : s.kind = .number) :
    IsFaulted .unary [s] (.number s.lexeme) := by
  intro levels power c ts rest cause hahead hts hfault _ _ _
  obtain ⟨t, rfl, rfl⟩ := List.map_eq_singleton_iff.mp hts
  rw [Tree.fault?_number] at hfault
  split_ifs at hfault with hread
  obtain rfl := Option.some.inj hfault
  have hnone : Double.read? t.symbol.lexeme.toList = none := by simpa using hread
  refine ⟨t.position, c.advanced, ?_⟩
  rw [climbFrom, runFrom_operand_cons hahead (opening_number_iff.mpr hs), operandOf, runFrom_number,
    Climber.current_of_ahead hahead, hnone, goOn_error]

theorem isFaulted_signed {s : Symbol} {negative : Bool} {ss : List Symbol} {tree : Tree}
    (hs : s.kind = .plus ∧ negative = false ∨ s.kind = .dash ∧ negative = true)
    (h : IsFaulted .unary ss tree) : IsFaulted .unary (s :: ss) (.signed negative tree) := by
  intro levels power c ts rest cause hahead hts hfault hdepth _ hfits
  obtain ⟨t, us, rfl, rfl, hus⟩ := List.map_eq_cons_iff.mp hts
  rw [Tree.fault?_signed] at hfault
  have hpower : signPower ≤ Category.unary.tightness := le_rfl
  obtain ⟨position, s₁, hoperand⟩ :=
    h.expression (Climber.ahead_advanced hahead) hus hfault hdepth hpower hfits
  have hopening := opening_sign_iff.mpr (hs.imp And.left And.left)
  refine ⟨position, s₁, ?_⟩
  rw [climbFrom, runFrom_operand_cons hahead hopening, operandOf, runFrom_signed, hoperand, goOn_error,
    goOn_error]

theorem isFaulted_group {opening closing : Symbol} {ss : List Symbol} {tree : Tree}
    (hopening : opening.kind = .openParen) (hclosing : closing.kind = .closeParen)
    (h : IsFaulted .sum ss tree) : IsFaulted .unary (opening :: (ss ++ [closing])) (.group tree) := by
  intro levels power c ts rest cause hahead hts hfault hdepth _ _
  obtain ⟨t, ts, rfl, rfl, htail⟩ := List.map_eq_cons_iff.mp hts
  obtain ⟨us, vs, rfl, hus, hvs⟩ := List.map_eq_append_iff.mp htail
  obtain ⟨u, rfl, rfl⟩ := List.map_eq_singleton_iff.mp hvs
  rw [List.cons_append, List.append_assoc, List.singleton_append] at hahead
  rw [Tree.fault?_group] at hfault
  have hfits : Fits .sum (u :: rest) := by simp [Fits, binding_of_closeParen hclosing]
  obtain ⟨position, s₁, hinner⟩ :=
    h.expression (Climber.ahead_advanced hahead) hus hfault hdepth (Nat.zero_le _) hfits
  refine ⟨position, s₁, ?_⟩
  rw [climbFrom, runFrom_operand_cons hahead (opening_group_iff.mpr hopening), operandOf, runFrom_group,
    hinner, goOn_error, goOn_error]

theorem isFaulted_operation {s : Symbol} {o : Operator} {b : Binding} {c d e : Category}
    {ls rs : List Symbol} {l r : Tree} (hb : Table.arithmetic.binding s.kind = some b)
    (hread : IsRead c ls l) (hl : IsFaulted c ls l) (hc : b.leftPower ≤ c.tightness)
    (hr : IsFaulted d rs r) (hd : b.rightPower ≤ d.tightness) (he : e.tightness = b.power) :
    IsFaulted e (ls ++ s :: rs) (.operation o l r) := by
  have hec : e.tightness ≤ c.tightness := by
    rw [he]
    exact b.power_le_leftPower.trans hc
  have hed : e.tightness ≤ d.tightness := by
    rw [he]
    exact b.power_le_rightPower.trans hd
  intro levels power c₀ ts rest cause hahead hts hfault hdepth hpower hfits
  obtain ⟨us, vs, rfl, hus, hvs⟩ := List.map_eq_append_iff.mp hts
  obtain ⟨t, vs, rfl, rfl, htail⟩ := List.map_eq_cons_iff.mp hvs
  rw [List.append_assoc, List.cons_append] at hahead
  have hfront : Fits c (t :: (vs ++ rest)) := by
    intro b' hb'
    obtain rfl := Option.some.inj (hb.symm.trans hb')
    exact hc
  rw [Tree.fault?_operation, Option.or_eq_some_iff] at hfault
  obtain hfault | ⟨hnone, hfault⟩ := hfault
  · exact hl levels power c₀ us _ cause hahead hus hfault hdepth (hpower.trans hec) hfront
  · -- The left operand is read, and the right one fails behind it.
    obtain ⟨hvalue, hlt⟩ := Tree.fault?_eq_none_iff.mp hnone
    obtain ⟨y, hy⟩ := Option.isSome_iff_exists.mp hvalue
    obtain ⟨s₁, hs₁, hdepth₁, hclimb⟩ := hread levels power c₀ us _ y hahead hus hy (by omega) hdepth
      (hpower.trans hec) hfront
    obtain ⟨position, s₂, hright⟩ := hr.expression (Climber.ahead_advanced hs₁) htail hfault
      (by rw [Climber.depth_advanced]; omega) hd (hfits.mono hed)
    refine ⟨position, s₂, ?_⟩
    rw [hclimb, allOperations_of_go_on rfl (forward_expressionWithin _ _)
      (by rw [kind_current, hs₁]; exact hb) (he ▸ hpower), runFrom_operation, hright, goOn_error,
      goOn_error]

theorem Derives.isFaulted {c : Category} {ss : List Symbol} {tree : Tree} (h : Derives c ss tree) :
    IsFaulted c ss tree := by
  induction h using Derives.induction_operation with
  | loosen h hle ih =>
    intro levels power s ts rest cause hahead hts hfault hdepth hpower hfits
    exact ih levels power s ts rest cause hahead hts hfault hdepth (hpower.trans hle) (hfits.mono hle)
  | operation ho hb hl hc hr hd he h ihl ihr => exact isFaulted_operation hb hl.isRead ihl hc ihr hd he
  | signed hs h ih => exact isFaulted_signed hs ih
  | number hs => exact isFaulted_number hs
  | group hopening hclosing h ih => exact isFaulted_group hopening hclosing ih

theorem evaluateTokens_of_fault {tokens : List (Token Symbol)} {tree : Tree} {cause : Cause}
    (hderives : Derives .sum (symbolsBeforeEnd tokens) tree)
    (hfault : tree.fault? nestingLimit = some cause) :
    ∃ position, evaluateTokens tokens = .error ⟨cause, position⟩ := by
  rw [← symbolsBeforeEnd_ahead_ofTokens] at hderives
  obtain ⟨us, rest, hsplit, hkind, hend⟩ := exists_split_at_end (Stream.ofTokens tokens).ahead
  rw [hsplit, symbolsBeforeEnd_append hkind hend] at hderives
  have hfits : Fits .sum rest := by
    intro b hb
    simp [hend, binding_arithmetic] at hb
  obtain ⟨position, s', hrun⟩ := hderives.isFaulted.expression (s := Climber.ofTokens tokens) hsplit rfl
    hfault rfl (Nat.zero_le _) hfits
  exact ⟨position, by rw [evaluateTokens_eq, hrun]⟩

/-- Tokens that the grammar derives fail with a cause exactly if it is the fault of their tree. -/
theorem evaluateTokens_eq_error_iff {tokens : List (Token Symbol)} {tree : Tree} {cause : Cause}
    (hderives : Derives .sum (symbolsBeforeEnd tokens) tree) :
    (∃ position, evaluateTokens tokens = .error ⟨cause, position⟩) ↔
      tree.fault? nestingLimit = some cause := by
  refine ⟨?_, evaluateTokens_of_fault hderives⟩
  rintro ⟨position, herror⟩
  cases hfault : tree.fault? nestingLimit with
  | none =>
    obtain ⟨hvalue, hlt⟩ := Tree.fault?_eq_none_iff.mp hfault
    obtain ⟨x, hx⟩ := Option.isSome_iff_exists.mp hvalue
    rw [evaluateTokens_of_derives hderives hx (by omega)] at herror
    simp at herror
  | some cause' =>
    obtain ⟨position', herror'⟩ := evaluateTokens_of_fault hderives hfault
    rw [herror] at herror'
    simp_all

end Dialects.Expr
