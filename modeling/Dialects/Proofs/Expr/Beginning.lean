import Dialects.Proofs.Expr.Grammar

/-!
# Beginnings of expressions

Wherever an operand is due, an operand and the closing of the groups around it lead to an
expression.
-/

namespace Dialects.Expr

def IsExpression (ss : List Symbol) : Prop := ∃ tree, Derives .sum ss tree

/-- Whether some expression starts with symbols, however deep it nests. -/
def CanContinue (ss : List Symbol) : Prop := ∃ more, IsExpression (ss ++ more)

/-- Whether symbols end in a complete operand. -/
def EndsInOperand (ss : List Symbol) : Prop :=
  ∃ before operand tree, ss = before ++ operand ∧ Derives .unary operand tree

/-- Whether more parentheses have been opened than closed. -/
def OpensGroup (ss : List Symbol) : Prop :=
  (ss.countP fun s => s.kind = .closeParen) < ss.countP fun s => s.kind = .openParen

/-- Whether an operand is due behind symbols that something derived starts with, where so many
expressions have been begun: one by each operator, sign and parenthesis that waits for what stands
behind it. -/
inductive Begins : Category → List Symbol → Nat → Prop
  | start (c : Category) : Begins c [] 0
  | ofProduct {ss : List Symbol} {n : Nat} (h : Begins .product ss n) : Begins .sum ss n
  | ofPower {ss : List Symbol} {n : Nat} (h : Begins .power ss n) : Begins .product ss n
  | ofUnary {ss : List Symbol} {n : Nat} (h : Begins .unary ss n) : Begins .power ss n
  | sum {s : Symbol} {ls rs : List Symbol} {l : Tree} {n : Nat}
    (hs : s.kind = .plus ∨ s.kind = .dash) (hl : Derives .sum ls l) (hr : Begins .product rs n) :
    Begins .sum (ls ++ s :: rs) (n + 1)
  | product {s : Symbol} {ls rs : List Symbol} {l : Tree} {n : Nat}
    (hs : s.kind = .star ∨ s.kind = .slash) (hl : Derives .product ls l) (hr : Begins .power rs n) :
    Begins .product (ls ++ s :: rs) (n + 1)
  | power {s : Symbol} {ls rs : List Symbol} {l : Tree} {n : Nat} (hs : s.kind = .caret)
    (hl : Derives .unary ls l) (hr : Begins .power rs n) : Begins .power (ls ++ s :: rs) (n + 1)
  | signed {s : Symbol} {ss : List Symbol} {n : Nat} (hs : s.kind = .plus ∨ s.kind = .dash)
    (h : Begins .unary ss n) : Begins .unary (s :: ss) (n + 1)
  | group {opening : Symbol} {ss : List Symbol} {n : Nat} (hopening : opening.kind = .openParen)
    (h : Begins .sum ss n) : Begins .unary (opening :: ss) (n + 1)

/-! ## Operands that are due -/

theorem Begins.loosen {c d : Category} {ss : List Symbol} {n : Nat} (h : Begins c ss n)
    (hle : d.tightness ≤ c.tightness) : Begins d ss n :=
  Category.of_tightness_le (p := fun c => Begins c ss n) .ofUnary .ofPower .ofProduct hle h

theorem Begins.operation {s : Symbol} {b : Binding} {c d : Category} {ls rs : List Symbol}
    {l : Tree} {n : Nat} (hb : Table.arithmetic.binding s.kind = some b) (hl : Derives c ls l)
    (hc : b.leftPower ≤ c.tightness) (hr : Begins d rs n) (hd : b.rightPower ≤ d.tightness) :
    ∃ e : Category, e.tightness = b.power ∧ Begins e (ls ++ s :: rs) (n + 1) := by
  obtain ⟨hk, rfl⟩ | ⟨hk, rfl⟩ | ⟨hk, rfl⟩ := binding_eq_some_iff.mp hb
  · exact ⟨.sum, rfl, .sum hk (hl.loosen hc) (hr.loosen (d.tightness_gap.1 hd))⟩
  · exact ⟨.product, rfl, .product hk (hl.loosen hc) (hr.loosen (d.tightness_gap.2.1 hd))⟩
  · exact ⟨.power, rfl, .power hk (hl.loosen (c.tightness_gap.2.2 hc)) (hr.loosen hd)⟩

@[elab_as_elim]
theorem Begins.induction_operation
    {motive : ∀ (c : Category) (ss : List Symbol) (n : Nat), Begins c ss n → Prop}
    (start : ∀ c : Category, motive c [] 0 (.start c))
    (loosen : ∀ {c d : Category} {ss : List Symbol} {n : Nat} (h : Begins c ss n)
      (hle : d.tightness ≤ c.tightness), motive c ss n h → motive d ss n (h.loosen hle))
    (operation : ∀ {s : Symbol} {b : Binding} {c d e : Category} {ls rs : List Symbol} {l : Tree}
      {n : Nat} (_ : Table.arithmetic.binding s.kind = some b) (_ : Derives c ls l)
      (_ : b.leftPower ≤ c.tightness) (hr : Begins d rs n) (_ : b.rightPower ≤ d.tightness)
      (_ : e.tightness = b.power) (h : Begins e (ls ++ s :: rs) (n + 1)),
      motive d rs n hr → motive e (ls ++ s :: rs) (n + 1) h)
    (signed : ∀ {s : Symbol} {ss : List Symbol} {n : Nat} (hs : s.kind = .plus ∨ s.kind = .dash)
      (h : Begins .unary ss n), motive .unary ss n h →
      motive .unary (s :: ss) (n + 1) (.signed hs h))
    (group : ∀ {opening : Symbol} {ss : List Symbol} {n : Nat} (hopening : opening.kind = .openParen)
      (h : Begins .sum ss n), motive .sum ss n h →
      motive .unary (opening :: ss) (n + 1) (.group hopening h))
    {c : Category} {ss : List Symbol} {n : Nat} (h : Begins c ss n) : motive c ss n h := by
  induction h with
  | start c => exact start c
  | ofProduct h ih => exact loosen h (by decide) ih
  | ofPower h ih => exact loosen h (by decide) ih
  | ofUnary h ih => exact loosen h (by decide) ih
  | @sum s ls rs l n hs hl hr ih =>
    have hb : Table.arithmetic.binding s.kind = some ⟨10, .left⟩ :=
      binding_eq_some_iff.mpr (.inl ⟨hs, rfl⟩)
    exact operation hb hl (by decide) hr (by decide) rfl (.sum hs hl hr) ih
  | @product s ls rs l n hs hl hr ih =>
    have hb : Table.arithmetic.binding s.kind = some ⟨20, .left⟩ :=
      binding_eq_some_iff.mpr (.inr (.inl ⟨hs, rfl⟩))
    exact operation hb hl (by decide) hr (by decide) rfl (.product hs hl hr) ih
  | @power s ls rs l n hs hl hr ih =>
    have hb : Table.arithmetic.binding s.kind = some ⟨30, .right⟩ :=
      binding_eq_some_iff.mpr (.inr (.inr ⟨hs, rfl⟩))
    exact operation hb hl (by decide) hr (by decide) rfl (.power hs hl hr) ih
  | signed hs h ih => exact signed hs h ih
  | group hopening h ih => exact group hopening h ih

theorem Begins.exists_derives {c : Category} {ss operand : List Symbol} {n : Nat} {t : Tree}
    (h : Begins c ss n) (ht : Derives .unary operand t) :
    ∃ more tree, Derives c (ss ++ (operand ++ more)) tree := by
  induction h using Begins.induction_operation with
  | start c => exact ⟨[], t, by simpa using ht.loosen (by cases c <;> decide)⟩
  | loosen h hle ih =>
    obtain ⟨more, tree, hderives⟩ := ih
    exact ⟨more, tree, hderives.loosen hle⟩
  | operation hb hl hc hr hd he h ih =>
    obtain ⟨more, tree, hderives⟩ := ih
    obtain ⟨o, ho⟩ := exists_operator_of_binding hb
    obtain ⟨e, he', hwhole⟩ := Derives.operation ho hb hl hc hderives hd
    exact ⟨more, _, by simpa using hwhole.loosen (he.trans he'.symm).le⟩
  | @signed s ss n hs h ih =>
    obtain ⟨more, tree, hderives⟩ := ih
    obtain hs | hs := hs
    · exact ⟨more, _, .signed (.inl ⟨hs, rfl⟩) hderives⟩
    · exact ⟨more, _, .signed (.inr ⟨hs, rfl⟩) hderives⟩
  | group hopening h ih =>
    obtain ⟨more, tree, hderives⟩ := ih
    refine ⟨more ++ [⟨.closeParen, ")"⟩], .group tree, ?_⟩
    simpa using Derives.group hopening (rfl : (⟨.closeParen, ")"⟩ : Symbol).kind = .closeParen) hderives

theorem Begins.canContinue {ss : List Symbol} {n : Nat} (h : Begins .sum ss n) : CanContinue ss := by
  have hnumber : Derives .unary [⟨.number, "0"⟩] (.number "0") := .number rfl
  obtain ⟨more, hderives⟩ := h.exists_derives hnumber
  exact ⟨_, hderives⟩

theorem Begins.canContinue_group {before inner : List Symbol} {opening : Symbol} {n : Nat}
    {t : Tree} (h : Begins .sum before n) (hopening : opening.kind = .openParen)
    (hinner : Derives .sum inner t) : CanContinue (before ++ opening :: inner) := by
  have hgroup : Derives .unary (opening :: (inner ++ [⟨.closeParen, ")"⟩])) (.group t) :=
    .group hopening rfl hinner
  obtain ⟨more, hderives⟩ := h.exists_derives hgroup
  refine ⟨⟨.closeParen, ")"⟩ :: more, ?_⟩
  simpa [IsExpression] using hderives

theorem EndsInOperand.append {ss : List Symbol} (h : EndsInOperand ss) (before : List Symbol) :
    EndsInOperand (before ++ ss) := by
  obtain ⟨first, operand, tree, rfl, htree⟩ := h
  exact ⟨before ++ first, operand, tree, (List.append_assoc _ _ _).symm, htree⟩

theorem Derives.endsInOperand {c : Category} {ss : List Symbol} {t : Tree} (h : Derives c ss t) :
    EndsInOperand ss := by
  induction h using Derives.induction_operation with
  | loosen h hle ih => exact ih
  | @operation s o b c d e ls rs l r ho hb hl hc hr hd he h ihl ihr =>
    simpa using ihr.append (ls ++ [s])
  | signed hs h ih => exact ⟨[], _, _, rfl, .signed hs h⟩
  | number hs => exact ⟨[], _, _, rfl, .number hs⟩
  | group hopening hclosing h ih => exact ⟨[], _, _, rfl, .group hopening hclosing h⟩

end Dialects.Expr
