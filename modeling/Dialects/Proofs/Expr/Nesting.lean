import Dialects.Proofs.Brackets
import Dialects.Proofs.Expr.Fault
import Dialects.Proofs.Expr.Orthography

/-!
# Open groups

The levels that a text may open are not only for its groups: a right operand takes one as well. So a
text may have fewer groups open than it may have levels.
-/

namespace Dialects.Expr

open Dialects.Text

/-! ## Open groups -/

def Symbol.opensGroup (s : Symbol) : Bool := s.kind = .openParen

def Symbol.closesGroup (s : Symbol) : Bool := s.kind = .closeParen

/-- Whether at most `limit` groups are open at any point. -/
def GroupsWithin (limit : Nat) (ss : List Symbol) : Prop :=
  OpenWithin Symbol.opensGroup Symbol.closesGroup limit ss

/-- Whether a symbol neither opens nor closes a group. -/
def Symbol.IsInside (s : Symbol) : Prop := s.opensGroup = false ∧ s.closesGroup = false

theorem isInside_of_binding {s : Symbol} {b : Binding}
    (hb : Table.arithmetic.binding s.kind = some b) : s.IsInside := by
  obtain ⟨hk | hk, -⟩ | ⟨hk | hk, -⟩ | ⟨hk, -⟩ := binding_eq_some_iff.mp hb
  all_goals simp [Symbol.IsInside, Symbol.opensGroup, Symbol.closesGroup, hk]

theorem isInside_of_sign {s : Symbol} {p q : Prop} (hs : s.kind = .plus ∧ p ∨ s.kind = .dash ∧ q) :
    s.IsInside := by
  obtain ⟨hk, -⟩ | ⟨hk, -⟩ := hs
  all_goals simp [Symbol.IsInside, Symbol.opensGroup, Symbol.closesGroup, hk]

theorem isInside_of_number {s : Symbol} (hs : s.kind = .number) : s.IsInside := by
  simp [Symbol.IsInside, Symbol.opensGroup, Symbol.closesGroup, hs]

theorem opensGroup_of_openParen {s : Symbol} (hs : s.kind = .openParen) :
    s.opensGroup = true ∧ s.closesGroup = false := by
  simp [Symbol.opensGroup, Symbol.closesGroup, hs]

theorem closesGroup_of_closeParen {s : Symbol} (hs : s.kind = .closeParen) :
    s.opensGroup = false ∧ s.closesGroup = true := by
  simp [Symbol.opensGroup, Symbol.closesGroup, hs]

theorem Derives.closesAll {c : Category} {ss : List Symbol} {tree : Tree} (h : Derives c ss tree) :
    ss.countP Symbol.opensGroup = ss.countP Symbol.closesGroup := by
  induction h using Derives.induction_operation with
  | loosen h hle ih => exact ih
  | operation ho hb hl hc hr hd he h ihl ihr =>
    obtain ⟨hopens, hcloses⟩ := isInside_of_binding hb
    simp [hopens, hcloses, ihl, ihr]
  | signed hs h ih =>
    obtain ⟨hopens, hcloses⟩ := isInside_of_sign hs
    simp [hopens, hcloses, ih]
  | number hs =>
    obtain ⟨hopens, hcloses⟩ := isInside_of_number hs
    simp [hopens, hcloses]
  | group hopening hclosing h ih =>
    obtain ⟨hopens, hnot⟩ := opensGroup_of_openParen hopening
    obtain ⟨hnot', hcloses⟩ := closesGroup_of_closeParen hclosing
    simp [hopens, hnot, hnot', hcloses, ih]

theorem Derives.groupsWithin_iff {c : Category} {ss : List Symbol} {tree : Tree}
    (h : Derives c ss tree) {limit : Nat} :
    GroupsWithin limit ss ↔ ∀ n ∈ tree.numbers, n.groups ≤ limit := by
  unfold GroupsWithin
  induction h using Derives.induction_operation generalizing limit with
  | loosen h hle ih => exact ih
  | operation ho hb hl hc hr hd he h ihl ihr =>
    obtain ⟨hopens, hcloses⟩ := isInside_of_binding hb
    rw [openWithin_append hl.closesAll, openWithin_cons_of_neither hopens hcloses, ihl, ihr,
      Tree.numbers, List.forall_mem_append, List.forall_mem_map]
    rfl
  | signed hs h ih =>
    obtain ⟨hopens, hcloses⟩ := isInside_of_sign hs
    rw [openWithin_cons_of_neither hopens hcloses, ih, Tree.numbers, List.forall_mem_map]
    rfl
  | number hs => simp [openWithin_singleton (isInside_of_number hs).1, Tree.numbers]
  | @group opening closing ss inner hopening hclosing h ih =>
    rw [openWithin_bracketed (opensGroup_of_openParen hopening) (closesGroup_of_closeParen hclosing).1
      h.closesAll, Tree.numbers, List.forall_mem_map]
    constructor
    · rintro ⟨k, rfl, hk⟩ n hn
      exact Nat.succ_le_succ (ih.mp hk n hn)
    · intro hall
      -- There is a number inside, so the group is one of those around it.
      obtain ⟨n, ns, hnumbers⟩ := List.exists_cons_of_ne_nil inner.numbers_ne_nil
      have hn : n.groups + 1 ≤ limit := hall n (by simp [hnumbers])
      obtain ⟨k, rfl⟩ := Nat.exists_eq_succ_of_ne_zero (by omega : limit ≠ 0)
      exact ⟨k, rfl, ih.mpr fun m hm => Nat.le_of_succ_le_succ (hall m hm)⟩

/-! ## Plain expressions -/

/-- Whether a tree has neither signs nor powers. -/
def Tree.IsPlain : Tree → Prop
  | number _ => True
  | signed _ _ => False
  | group inner => inner.IsPlain
  | operation operator left right => operator ≠ .pow ∧ left.IsPlain ∧ right.IsPlain

/-- How many right operands may lie in one another outside of groups, where there are no powers. -/
def Category.operandsMost : Category → Nat
  | sum => 2
  | product => 1
  | power | unary => 0

theorem Derives.operands_le {c : Category} {ss : List Symbol} {tree : Tree} (h : Derives c ss tree)
    (hplain : tree.IsPlain) : ∀ n ∈ tree.numbers, n.operands ≤ 2 * n.groups + c.operandsMost := by
  -- Between groups, only the right operands of a sum and of a product count, each once.
  induction h with
  | ofProduct h ih =>
    intro n hn
    exact (ih hplain n hn).trans (Nat.le_succ _)
  | ofPower h ih =>
    intro n hn
    exact (ih hplain n hn).trans (Nat.le_succ _)
  | ofUnary h ih => exact ih hplain
  | sum hs hl hr ihl ihr =>
    obtain ⟨-, hplainl, hplainr⟩ := hplain
    rw [Tree.numbers, List.forall_mem_append, List.forall_mem_map]
    exact ⟨ihl hplainl, fun n hn => Nat.succ_le_succ (ihr hplainr n hn)⟩
  | product hs hl hr ihl ihr =>
    obtain ⟨-, hplainl, hplainr⟩ := hplain
    rw [Tree.numbers, List.forall_mem_append, List.forall_mem_map]
    exact ⟨ihl hplainl, fun n hn => Nat.succ_le_succ (ihr hplainr n hn)⟩
  | power hs hl hr ihl ihr => exact absurd rfl hplain.1
  | signed hs h ih => exact hplain.elim
  | number hs => simp [Tree.numbers]
  | group hopening hclosing h ih =>
    rw [Tree.numbers, List.forall_mem_map]
    exact fun n hn => ih hplain n hn

/-! ## Groups around a number -/

def openPiece : Piece Symbol := ⟨[], ⟨.openParen, "("⟩, ['(']⟩

def closePiece : Piece Symbol := ⟨[], ⟨.closeParen, ")"⟩, [')']⟩

def onePiece : Piece Symbol := ⟨[], ⟨.number, "1"⟩, ['1']⟩

/-- A number with `n` groups around it. -/
def groupPieces : Nat → List (Piece Symbol)
  | 0 => [onePiece]
  | n + 1 => openPiece :: (groupPieces n ++ [closePiece])

def groupTree : Nat → Tree
  | 0 => .number "1"
  | n + 1 => .group (groupTree n)

def groupText (n : Nat) : String := String.ofList (Piece.text (groupPieces n))

theorem numbers_groupTree (n : Nat) : (groupTree n).numbers = [⟨"1", n, 0⟩] := by
  induction n with
  | zero => rfl
  | succ n ih =>
    rw [groupTree, Tree.numbers, ih]
    rfl

theorem isPlain_groupTree (n : Nat) : (groupTree n).IsPlain := by
  induction n with
  | zero => trivial
  | succ n ih => exact ih

theorem derives_groupTree (n : Nat) :
    Derives .sum ((groupPieces n).map Piece.symbol) (groupTree n) := by
  induction n with
  | zero =>
    have hnumber : Derives .unary [onePiece.symbol] (.number "1") := .number rfl
    exact hnumber.loosen (by decide)
  | succ n ih =>
    have hgroup : Derives .unary ((groupPieces (n + 1)).map Piece.symbol) (groupTree (n + 1)) := by
      rw [groupPieces, List.map_cons, List.map_append]
      exact .group rfl rfl ih
    exact hgroup.loosen (by decide)

theorem reads_character {d : Char} {kind : Kind} (h : Symbol.kindOfChar? d = some kind)
    (rest : List Char) : (⟨[], ⟨kind, d.toString⟩, [d]⟩ : Piece Symbol).Reads rest :=
  Piece.reads_of_spells (by simp) (Or.inl ⟨d, kind, h, rfl, rfl⟩)
    fun hnumber => absurd hnumber (ne_of_kindOfChar? h).1

theorem allRead_groupPieces (n : Nat) {rest : List Char} (hrest : NumberEnds ['1'] rest) :
    Piece.AllRead (groupPieces n) rest := by
  induction n generalizing rest with
  | zero =>
    have hone : IsNumber ['1'] := ⟨by simp, rfl⟩
    exact ⟨Piece.reads_of_spells (by simp [onePiece]) (Or.inr ⟨hone, rfl⟩) fun _ => hrest, trivial⟩
  | succ n ih =>
    have hclose : NumberEnds ['1'] (')' :: rest) := by simp [NumberEnds, Char.isDigit]
    refine ⟨reads_character rfl _, (Piece.allRead_append _ _ _).mpr ⟨ih hclose, ?_, trivial⟩⟩
    exact reads_character rfl _

theorem exists_tokenize_groupText (n : Nat) : ∃ tokens, tokenize (groupText n) = .ok tokens ∧
    symbolsBeforeEnd tokens = (groupPieces n).map Piece.symbol := by
  have hread : Piece.AllRead (groupPieces n) [] := allRead_groupPieces n (by simp [NumberEnds])
  have hkind : ∀ t ∈ Piece.tokens 0 (groupPieces n), t.symbol.kind ≠ .eof := by
    simpa [← Piece.map_symbol_tokens 0] using (derives_groupTree n).kind_ne_eof
  refine ⟨_, tokenize_eq_ok_iff.mpr ⟨_, _, Piece.ofSource_text hread, rfl⟩, ?_⟩
  rw [symbolsBeforeEnd_append hkind rfl, Piece.map_symbol_tokens]

theorem evaluate_groupText_eq_tooDeep_iff (n : Nat) :
    (∃ position, evaluate (groupText n) = .error ⟨.tooDeep nestingLimit, position⟩) ↔
      nestingLimit ≤ n := by
  obtain ⟨tokens, htokens, hsymbols⟩ := exists_tokenize_groupText n
  have hderives : Derives .sum (symbolsBeforeEnd tokens) (groupTree n) := hsymbols ▸ derives_groupTree n
  have hfault : (groupTree n).fault? nestingLimit = (⟨"1", n, 0⟩ : Placed).fault? nestingLimit := by
    simp [Tree.fault?, numbers_groupTree]
  rw [evaluate_of_tokenize htokens, evaluateTokens_eq_error_iff hderives, hfault,
    Placed.fault?_eq_tooDeep_iff]
  rfl

/-! ## Expressions that nest too deep -/

/-- A text that the grammar derives nests too deep exactly if one of its numbers lies in as many groups,
right operands and signed operands together as there may be levels, and all numbers in front of it can be
read. Without signs and powers, it does not if fewer than a third as many groups are open. -/
theorem evaluate_eq_tooDeep_iff {source : String} {tokens : List (Token Symbol)} {tree : Tree}
    (htokens : tokenize source = .ok tokens) (hderives : Derives .sum (symbolsBeforeEnd tokens) tree) :
    ((∃ position, evaluate source = .error ⟨.tooDeep nestingLimit, position⟩) ↔
      ∃ before n after, tree.numbers = before ++ n :: after ∧ nestingLimit ≤ n.groups + n.operands ∧
        ∀ m ∈ before, (Double.read? m.lexeme.toList).isSome) ∧
    ∀ limit, tree.IsPlain → GroupsWithin limit (symbolsBeforeEnd tokens) → 3 * limit + 2 < nestingLimit →
      ∀ position, evaluate source ≠ .error ⟨.tooDeep nestingLimit, position⟩ := by
  have hiff : (∃ position, evaluate source = .error ⟨.tooDeep nestingLimit, position⟩) ↔
      ∃ before n after, tree.numbers = before ++ n :: after ∧ nestingLimit ≤ n.groups + n.operands ∧
        ∀ m ∈ before, (Double.read? m.lexeme.toList).isSome := by
    rw [evaluate_of_tokenize htokens, evaluateTokens_eq_error_iff hderives, Tree.fault?_eq_tooDeep_iff]
    rfl
  refine ⟨hiff, fun limit hplain hwithin hlimit position htooDeep => ?_⟩
  obtain ⟨before, n, after, hnumbers, hdepth, -⟩ := hiff.mp ⟨position, htooDeep⟩
  have hn : n ∈ tree.numbers := by simp [hnumbers]
  have hgroups := hderives.groupsWithin_iff.mp hwithin n hn
  have hoperands : n.operands ≤ 2 * n.groups + 2 := hderives.operands_le hplain n hn
  omega

/-- Two groups and two right operands are far from too many. -/
theorem evaluate_ne_tooDeep_of_sum :
    ¬∃ position, evaluate "1+(2*(3))" = .error ⟨.tooDeep nestingLimit, position⟩ := by
  have htokens : tokenize "1+(2*(3))" = .ok [(⟨⟨.number, "1"⟩, 0⟩ : Token Symbol), ⟨⟨.plus, "+"⟩, 1⟩,
    ⟨⟨.openParen, "("⟩, 2⟩, ⟨⟨.number, "2"⟩, 3⟩, ⟨⟨.star, "*"⟩, 4⟩, ⟨⟨.openParen, "("⟩, 5⟩,
    ⟨⟨.number, "3"⟩, 6⟩, ⟨⟨.closeParen, ")"⟩, 7⟩, ⟨⟨.closeParen, ")"⟩, 8⟩, ⟨.eof, 9⟩] := rfl
  have hnumber (lexeme : String) : Derives .unary [⟨.number, lexeme⟩] (.number lexeme) := .number rfl
  have hinner : Derives .power [⟨.openParen, "("⟩, ⟨.number, "3"⟩, ⟨.closeParen, ")"⟩]
      (.group (.number "3")) := .ofUnary (.group rfl rfl ((hnumber "3").loosen (by decide)))
  have hproduct := Derives.product (s := ⟨.star, "*"⟩) (.inl ⟨rfl, rfl⟩)
    ((hnumber "2").loosen (by decide)) hinner
  have hgroup : Derives .product (⟨.openParen, "("⟩ :: (_ ++ [⟨.closeParen, ")"⟩])) _ :=
    .ofPower (.ofUnary (.group rfl rfl (.ofProduct hproduct)))
  have hsum := Derives.sum (s := ⟨.plus, "+"⟩) (.inl ⟨rfl, rfl⟩) ((hnumber "1").loosen (by decide))
    hgroup
  have hplain := (evaluate_eq_tooDeep_iff htokens hsum).2 2 (by simp [Tree.IsPlain])
    (hsum.groupsWithin_iff.mpr (by simp [Tree.numbers, Placed.inGroup, Placed.inOperand])) (by decide)
  rintro ⟨position, htooDeep⟩
  exact hplain position htooDeep

/-- As many groups as there may be levels, and nothing else around a number, are one too many. -/
theorem exists_tooDeep_of_groups : ∃ tokens tree, tokenize (groupText nestingLimit) = .ok tokens ∧
    Derives .sum (symbolsBeforeEnd tokens) tree ∧ tree.IsPlain ∧
    GroupsWithin nestingLimit (symbolsBeforeEnd tokens) ∧
    ∃ position, evaluate (groupText nestingLimit) = .error ⟨.tooDeep nestingLimit, position⟩ := by
  obtain ⟨tokens, htokens, hsymbols⟩ := exists_tokenize_groupText nestingLimit
  have hderives : Derives .sum (symbolsBeforeEnd tokens) (groupTree nestingLimit) :=
    hsymbols ▸ derives_groupTree nestingLimit
  refine ⟨tokens, _, htokens, hderives, isPlain_groupTree _, ?_,
    (evaluate_groupText_eq_tooDeep_iff _).mpr le_rfl⟩
  rw [hderives.groupsWithin_iff, numbers_groupTree]
  simp

end Dialects.Expr
