import Dialects.Proofs.Expr.Accepted

/-!
# Evaluation by the grammar

Climbing powers accepts what the grammar of arithmetic derives, as far as it is not nested too deep,
and gives the value of the tree.
-/

namespace Dialects.Expr

open Climb

/-! ## What is derived is read -/

def climbFrom (levels power : Nat) (s : Climber) : Except Failure Double × Climber :=
  goOn ((operand .arithmetic (expressionWithin .arithmetic levels)).runFrom s)
    (allOperations .arithmetic (expressionWithin .arithmetic levels) power)

/-- Whether symbols of a tree are read, wherever no tighter operator follows: the climb gets behind
them with the value of the tree in hand. -/
def IsRead (c : Category) (ss : List Symbol) (tree : Tree) : Prop :=
  ∀ (levels power : Nat) (s : Climber) (ts rest : List (Token Symbol)) (x : Double),
    s.stream.ahead = ts ++ rest → ts.map Token.symbol = ss → tree.value? = some x →
    tree.depth ≤ levels → s.depth + levels = nestingLimit → power ≤ c.tightness → Fits c rest →
    ∃ s', s'.stream.ahead = rest ∧ s'.depth = s.depth ∧ climbFrom levels power s =
      allOperations .arithmetic (expressionWithin .arithmetic levels) power x s'

theorem IsRead.expression {c : Category} {ss : List Symbol} {tree : Tree} (h : IsRead c ss tree)
    {levels power : Nat} {s : Climber} {ts rest : List (Token Symbol)} {x : Double}
    (hahead : s.stream.ahead = ts ++ rest) (hts : ts.map Token.symbol = ss)
    (hvalue : tree.value? = some x) (hlevels : 1 + tree.depth ≤ levels)
    (hdepth : s.depth + levels = nestingLimit) (hpower : power ≤ c.tightness) (hfits : Fits c rest)
    (hlooser : Looser power rest) :
    ∃ s', s'.stream.ahead = rest ∧ s'.depth = s.depth ∧
      (expressionWithin .arithmetic levels power).runFrom s = (.ok x, s') := by
  obtain ⟨below, rfl⟩ := Nat.exists_eq_succ_of_ne_zero (by omega : levels ≠ 0)
  obtain ⟨s₁, hs₁, hdepth₁, hclimb⟩ := h below power { s with depth := s.depth + 1 } ts rest x hahead
    hts hvalue (by omega) (by simp only; omega) hpower hfits
  rw [allOperations_of_stop (by rwa [kind_current, hs₁]), climbFrom, goOn_eq_ok] at hclimb
  obtain ⟨left, s₂, hleft, hoperations⟩ := hclimb
  refine ⟨{ s₁ with depth := s₁.depth - 1 }, hs₁, by simp [hdepth₁], ?_⟩
  exact runFrom_expressionWithin_eq_ok.mpr
    ⟨below, rfl, by omega, left, s₂, s₁, hleft, hoperations, rfl⟩

theorem isRead_number {s : Symbol} (hs : s.kind = .number) :
    IsRead .unary [s] (.number s.lexeme) := by
  intro levels power c ts rest x hahead hts hvalue _ _ _ _
  obtain ⟨t, rfl, rfl⟩ := List.map_eq_singleton_iff.mp hts
  have hread : Double.read? t.symbol.lexeme.toList = some x := hvalue
  refine ⟨c.advanced, Climber.ahead_advanced hahead, rfl, ?_⟩
  rw [climbFrom, runFrom_operand_cons hahead (opening_number_iff.mpr hs), operandOf, runFrom_number,
    Climber.current_of_ahead hahead, hread, goOn_ok]

theorem isRead_signed {s : Symbol} {negative : Bool} {ss : List Symbol} {tree : Tree}
    (hs : s.kind = .plus ∧ negative = false ∨ s.kind = .dash ∧ negative = true)
    (h : IsRead .unary ss tree) : IsRead .unary (s :: ss) (.signed negative tree) := by
  intro levels power c ts rest x hahead hts hvalue hlevels hdepth _ hfits
  obtain ⟨t, us, rfl, rfl, hus⟩ := List.map_eq_cons_iff.mp hts
  obtain ⟨y, hy, rfl⟩ := Option.map_eq_some_iff.mp hvalue
  have hpower : signPower ≤ Category.unary.tightness := le_rfl
  obtain ⟨s₁, hs₁, hdepth₁, hoperand⟩ := h.expression (Climber.ahead_advanced hahead) hus hy hlevels
    hdepth hpower hfits (looser_signPower rest)
  have hopening := opening_sign_iff.mpr (hs.imp And.left And.left)
  refine ⟨s₁, hs₁, hdepth₁, ?_⟩
  rw [climbFrom, runFrom_operand_cons hahead hopening, operandOf, runFrom_signed, hoperand, goOn_ok,
    goOn_ok, hahead, List.cons_append, frontKind_cons]
  rcases hs with ⟨hs, rfl⟩ | ⟨hs, rfl⟩ <;> simp [hs]

theorem isRead_group {opening closing : Symbol} {ss : List Symbol} {tree : Tree}
    (hopening : opening.kind = .openParen) (hclosing : closing.kind = .closeParen)
    (h : IsRead .sum ss tree) : IsRead .unary (opening :: (ss ++ [closing])) (.group tree) := by
  intro levels power c ts rest x hahead hts hvalue hlevels hdepth _ _
  obtain ⟨t, ts, rfl, rfl, htail⟩ := List.map_eq_cons_iff.mp hts
  obtain ⟨us, vs, rfl, hus, hvs⟩ := List.map_eq_append_iff.mp htail
  obtain ⟨u, rfl, rfl⟩ := List.map_eq_singleton_iff.mp hvs
  rw [List.cons_append, List.append_assoc, List.singleton_append] at hahead
  have hnone := binding_of_closeParen hclosing rest
  have hlooser : Looser 0 (u :: rest) := by simp [Looser, hnone]
  obtain ⟨s₁, hs₁, hdepth₁, hinner⟩ := h.expression (Climber.ahead_advanced hahead) hus hvalue hlevels
    hdepth (Nat.zero_le _) (by simp [Fits, hnone]) hlooser
  refine ⟨s₁.advanced, Climber.ahead_advanced hs₁, hdepth₁, ?_⟩
  rw [climbFrom, runFrom_operand_cons hahead (opening_group_iff.mpr hopening), operandOf, runFrom_group,
    hinner, goOn_ok, runFrom_expect, if_pos (by rw [hs₁]; exact hclosing), goOn_ok, goOn_ok]

theorem isRead_operation {s : Symbol} {o : Operator} {b : Binding} {c d e : Category}
    {ls rs : List Symbol} {l r : Tree} (hs : Operator.ofKind? s.kind = some o)
    (hb : Table.arithmetic.binding s.kind = some b) (hl : IsRead c ls l)
    (hc : b.leftPower ≤ c.tightness) (hr : IsRead d rs r) (hd : b.rightPower ≤ d.tightness)
    (he : e.tightness = b.power) : IsRead e (ls ++ s :: rs) (.operation o l r) := by
  have hec : e.tightness ≤ c.tightness := by
    rw [he]
    exact b.power_le_leftPower.trans hc
  have hed : e.tightness ≤ d.tightness := by
    rw [he]
    exact b.power_le_rightPower.trans hd
  intro levels power c₀ ts rest x hahead hts hvalue hlevels hdepth hpower hfits
  obtain ⟨us, vs, rfl, hus, hvs⟩ := List.map_eq_append_iff.mp hts
  obtain ⟨t, vs, rfl, rfl, htail⟩ := List.map_eq_cons_iff.mp hvs
  rw [List.append_assoc, List.cons_append] at hahead
  obtain ⟨y, z, hy, hz, rfl⟩ : ∃ y z, l.value? = some y ∧ r.value? = some z ∧ o.apply y z = x := by
    simpa [Tree.value?, Option.bind_eq_some_iff] using hvalue
  simp only [Tree.depth] at hlevels
  -- The operator may stand behind its left operand, which is read up to it.
  have hfront : Fits c (t :: (vs ++ rest)) := by
    intro b' hb'
    obtain rfl := Option.some.inj (hb.symm.trans hb')
    exact hc
  obtain ⟨s₁, hs₁, hdepth₁, hclimb⟩ := hl levels power c₀ us _ y hahead hus hy (by omega) hdepth
    (hpower.trans hec) hfront
  obtain ⟨s₂, hs₂, hdepth₂, hright⟩ := hr.expression (Climber.ahead_advanced hs₁) htail hz
    (by omega : 1 + r.depth ≤ levels) (by rw [Climber.depth_advanced]; omega) hd (hfits.mono hed)
    ((looser_iff_fits hb he rest).mpr hfits)
  have hoperation : (operation (expressionWithin .arithmetic levels) y b.rightPower).runFrom s₁ =
      (.ok (o.apply y z), s₂) := by
    rw [runFrom_operation, hright, goOn_ok, Climber.current_of_ahead hs₁, applied_eq hs]
  refine ⟨s₂, hs₂, hdepth₂.trans hdepth₁, ?_⟩
  rw [hclimb, allOperations_of_go_on rfl (forward_expressionWithin _ _)
    (by rw [kind_current, hs₁]; exact hb) (he ▸ hpower), hoperation, goOn_ok]

theorem IsRead.loosen {c d : Category} {ss : List Symbol} {tree : Tree} (h : IsRead c ss tree)
    (hle : d.tightness ≤ c.tightness) : IsRead d ss tree := by
  intro levels power s ts rest x hahead hts hvalue hlevels hdepth hpower hfits
  exact h levels power s ts rest x hahead hts hvalue hlevels hdepth (hpower.trans hle)
    (hfits.mono hle)

theorem Derives.isRead {c : Category} {ss : List Symbol} {tree : Tree} (h : Derives c ss tree) :
    IsRead c ss tree := by
  induction h using Derives.induction_operation with
  | loosen h hle ih => exact ih.loosen hle
  | operation ho hb hl hc hr hd he h ihl ihr => exact isRead_operation ho hb ihl hc ihr hd he
  | signed hs h ih => exact isRead_signed hs ih
  | number hs => exact isRead_number hs
  | group hopening hclosing h ih => exact isRead_group hopening hclosing ih

/-! ## Whole texts -/

def symbolsBeforeEnd (tokens : List (Token Symbol)) : List Symbol :=
  (tokens.map Token.symbol).takeWhile fun s => s.kind ≠ .eof

theorem symbolsBeforeEnd_append {ts rest : List (Token Symbol)}
    (h : ∀ t ∈ ts, t.symbol.kind ≠ .eof) (hrest : frontKind rest = .eof) :
    symbolsBeforeEnd (ts ++ rest) = ts.map Token.symbol := by
  rw [symbolsBeforeEnd, List.map_append, List.takeWhile_append_of_pos (by simpa using h)]
  cases rest with
  | nil => simp
  | cons t rest =>
    have ht : t.symbol.kind = .eof := hrest
    simp [ht]

theorem exists_split_at_end (ts : List (Token Symbol)) :
    ∃ us rest, ts = us ++ rest ∧ (∀ t ∈ us, t.symbol.kind ≠ .eof) ∧ frontKind rest = .eof := by
  induction ts with
  | nil => exact ⟨[], [], rfl, by simp, rfl⟩
  | cons t ts ih =>
    by_cases ht : t.symbol.kind = .eof
    · exact ⟨[], t :: ts, rfl, by simp, ht⟩
    · obtain ⟨us, rest, rfl, hus, hrest⟩ := ih
      exact ⟨t :: us, rest, rfl, List.forall_mem_cons.mpr ⟨ht, hus⟩, hrest⟩

theorem symbolsBeforeEnd_ahead_ofTokens (tokens : List (Token Symbol)) :
    symbolsBeforeEnd (Stream.ofTokens tokens).ahead = symbolsBeforeEnd tokens := by
  unfold Stream.ofTokens
  split
  · rename_i hnone
    rw [List.getLast?_eq_none_iff.mp hnone]
  · rename_i last hlast
    obtain ⟨us, rfl⟩ := List.getLast?_eq_some_iff.mp hlast
    split_ifs with hend
    · -- Without the last token, which is an end, there may be no end left to stop at.
      obtain ⟨vs, rest, rfl, hvs, hrest⟩ := exists_split_at_end us
      have hrest' : frontKind (rest ++ [last]) = .eof := by
        cases rest with
        | nil => exact hend
        | cons t rest => exact hrest
      rw [List.dropLast_concat, symbolsBeforeEnd_append hvs hrest, List.append_assoc,
        symbolsBeforeEnd_append hvs hrest']
    · rfl

theorem evaluate_of_tokenize {source : String} {tokens : List (Token Symbol)}
    (h : tokenize source = .ok tokens) : evaluate source = evaluateTokens tokens := by
  rw [evaluate, h]
  rfl

theorem evaluateTokens_eq (tokens : List (Token Symbol)) : evaluateTokens tokens =
    match (expressionWithin .arithmetic nestingLimit 0).runFrom (Climber.ofTokens tokens) with
    | (.ok x, s') =>
      if frontKind s'.stream.ahead = .eof then .ok x else .error s'.stream.current.trailing
    | (.error f, _) => .error f := by
  have hdocument : document.runFrom (Climber.ofTokens tokens) =
      goOn ((expressionWithin .arithmetic nestingLimit 0).runFrom (Climber.ofTokens tokens))
        fun x s' => (do
          let t ← current
          if t.symbol.kind = .eof then return x else throw t.trailing : Climb Double).runFrom s' :=
    runFrom_bind _ _ _
  have hfirst : evaluateTokens tokens = (document.runFrom (Climber.ofTokens tokens)).1 := rfl
  rw [hfirst, hdocument]
  cases hrun : (expressionWithin .arithmetic nestingLimit 0).runFrom (Climber.ofTokens tokens) with
  | mk result s' =>
    cases result with
    | error f => rfl
    | ok y =>
      rw [goOn_ok, runFrom_bind, runFrom_current, goOn_ok, kind_current]
      dsimp only
      split_ifs <;> rfl

theorem evaluateTokens_eq_ok {tokens : List (Token Symbol)} {x : Double} :
    evaluateTokens tokens = .ok x ↔ ∃ s', frontKind s'.stream.ahead = .eof ∧
      (expressionWithin .arithmetic nestingLimit 0).runFrom (Climber.ofTokens tokens) =
        (.ok x, s') := by
  rw [evaluateTokens_eq]
  cases hrun : (expressionWithin .arithmetic nestingLimit 0).runFrom (Climber.ofTokens tokens) with
  | mk result s' =>
    cases result with
    | error f => simp
    | ok y =>
      dsimp only
      split_ifs with hend <;> simp [hend]

theorem evaluateTokens_of_derives {tokens : List (Token Symbol)} {tree : Tree} {x : Double}
    (hderives : Derives .sum (symbolsBeforeEnd tokens) tree) (hvalue : tree.value? = some x)
    (hle : 1 + tree.depth ≤ nestingLimit) : evaluateTokens tokens = .ok x := by
  rw [← symbolsBeforeEnd_ahead_ofTokens] at hderives
  obtain ⟨us, rest, hsplit, hkind, hend⟩ := exists_split_at_end (Stream.ofTokens tokens).ahead
  rw [hsplit, symbolsBeforeEnd_append hkind hend] at hderives
  have hnone : Table.arithmetic.binding (frontKind rest) = none := by
    rw [hend]
    rfl
  have hlooser : Looser 0 rest := by simp [Looser, hnone]
  obtain ⟨s', hs', -, hrun⟩ := hderives.isRead.expression (s := Climber.ofTokens tokens) hsplit rfl
    hvalue hle rfl (Nat.zero_le _) (by simp [Fits, hnone]) hlooser
  exact evaluateTokens_eq_ok.mpr ⟨s', by rw [hs', hend], hrun⟩

/-- Tokens have a value exactly if the grammar derives those in front of the first end, all their
numbers can be read, and they are not nested too deep. It is the value of the tree. -/
theorem evaluateTokens_eq_ok_iff (tokens : List (Token Symbol)) (x : Double) :
    evaluateTokens tokens = .ok x ↔ ∃ tree, Derives .sum (symbolsBeforeEnd tokens) tree ∧
      tree.value? = some x ∧ 1 + tree.depth ≤ nestingLimit := by
  constructor
  · rw [evaluateTokens_eq_ok, ← symbolsBeforeEnd_ahead_ofTokens]
    rintro ⟨s', hend, hrun⟩
    obtain ⟨below, hbelow, ⟨ts, tree, c, hsplit, -, hderives, hvalue, hle, -, -⟩, -⟩ :=
      readsSoundly nestingLimit 0 _ x s' (Nat.zero_le _) hrun
    have hkind : ∀ t ∈ ts, t.symbol.kind ≠ .eof := by simpa using hderives.kind_ne_eof
    refine ⟨tree, ?_, hvalue, by omega⟩
    rw [show (Stream.ofTokens tokens).ahead = ts ++ s'.stream.ahead from hsplit,
      symbolsBeforeEnd_append hkind hend]
    exact hderives.loosen (by cases c <;> decide)
  · rintro ⟨tree, hderives, hvalue, hle⟩
    exact evaluateTokens_of_derives hderives hvalue hle

end Dialects.Expr
