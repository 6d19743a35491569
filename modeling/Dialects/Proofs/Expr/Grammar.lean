import Mathlib
import Dialects.Double.Decimal
import Dialects.Expr.Table

/-!
# The grammar of arithmetic

Sums are made of products, products of powers and powers of signed operands. The rules for sums and
products repeat on their left, so that these operators group to the left; powers group to the right.
-/

namespace Dialects.Expr

/-! ## Trees -/

inductive Tree
  | number (lexeme : String)
  | signed (negative : Bool) (operand : Tree)
  | group (inner : Tree)
  | operation (operator : Operator) (left right : Tree)

namespace Tree

/-- The value of a tree, if all its numbers can be read. -/
def value? : Tree → Option Double
  | number lexeme => Double.read? lexeme.toList
  | signed negative operand => operand.value?.map fun x => if negative then x.neg else x
  | group inner => inner.value?
  | operation operator left right => do return operator.apply (← left.value?) (← right.value?)

/-- How deep a tree nests. Left operands do not count. -/
def depth : Tree → Nat
  | number _ => 0
  | signed _ operand => 1 + operand.depth
  | group inner => 1 + inner.depth
  | operation _ left right => max left.depth (1 + right.depth)

end Tree

/-! ## Derivations -/

inductive Category
  | sum
  | product
  | power
  | unary
deriving DecidableEq

/-- Whether symbols are spelled as the grammar says, and for which tree. -/
inductive Derives : Category → List Symbol → Tree → Prop
  | ofProduct {ss : List Symbol} {t : Tree} (h : Derives .product ss t) : Derives .sum ss t
  | ofPower {ss : List Symbol} {t : Tree} (h : Derives .power ss t) : Derives .product ss t
  | ofUnary {ss : List Symbol} {t : Tree} (h : Derives .unary ss t) : Derives .power ss t
  | sum {s : Symbol} {o : Operator} {ls rs : List Symbol} {l r : Tree}
    (hs : s.kind = .plus ∧ o = .add ∨ s.kind = .dash ∧ o = .sub)
    (hl : Derives .sum ls l) (hr : Derives .product rs r) :
    Derives .sum (ls ++ s :: rs) (.operation o l r)
  | product {s : Symbol} {o : Operator} {ls rs : List Symbol} {l r : Tree}
    (hs : s.kind = .star ∧ o = .mul ∨ s.kind = .slash ∧ o = .div)
    (hl : Derives .product ls l) (hr : Derives .power rs r) :
    Derives .product (ls ++ s :: rs) (.operation o l r)
  | power {s : Symbol} {ls rs : List Symbol} {l r : Tree} (hs : s.kind = .caret)
    (hl : Derives .unary ls l) (hr : Derives .power rs r) :
    Derives .power (ls ++ s :: rs) (.operation .pow l r)
  | signed {s : Symbol} {negative : Bool} {ss : List Symbol} {t : Tree}
    (hs : s.kind = .plus ∧ negative = false ∨ s.kind = .dash ∧ negative = true)
    (h : Derives .unary ss t) : Derives .unary (s :: ss) (.signed negative t)
  | number {s : Symbol} (hs : s.kind = .number) : Derives .unary [s] (.number s.lexeme)
  | group {opening closing : Symbol} {ss : List Symbol} {t : Tree}
    (hopening : opening.kind = .openParen) (hclosing : closing.kind = .closeParen)
    (h : Derives .sum ss t) : Derives .unary (opening :: (ss ++ [closing])) (.group t)

theorem Derives.kind_ne_eof {c : Category} {ss : List Symbol} {t : Tree} (h : Derives c ss t) :
    ∀ s ∈ ss, s.kind ≠ .eof := by
  have hinfix {s : Symbol} {ls rs : List Symbol} (hs : s.kind ≠ .eof)
      (hl : ∀ s ∈ ls, s.kind ≠ .eof) (hr : ∀ s ∈ rs, s.kind ≠ .eof) :
      ∀ x ∈ ls ++ s :: rs, x.kind ≠ .eof := by
    intro x hx
    rcases List.mem_append.mp hx with hx | hx
    · exact hl x hx
    · rcases List.mem_cons.mp hx with rfl | hx
      · exact hs
      · exact hr x hx
  induction h with
  | ofProduct h ih => exact ih
  | ofPower h ih => exact ih
  | ofUnary h ih => exact ih
  | sum hs hl hr ihl ihr => exact hinfix (by rcases hs with ⟨hs, -⟩ | ⟨hs, -⟩ <;> simp [hs]) ihl ihr
  | product hs hl hr ihl ihr =>
    exact hinfix (by rcases hs with ⟨hs, -⟩ | ⟨hs, -⟩ <;> simp [hs]) ihl ihr
  | power hs hl hr ihl ihr => exact hinfix (by simp [hs]) ihl ihr
  | signed hs h ih =>
    exact List.forall_mem_cons.mpr ⟨by rcases hs with ⟨hs, -⟩ | ⟨hs, -⟩ <;> simp [hs], ih⟩
  | number hs => simp [hs]
  | group hopening hclosing h ih =>
    refine List.forall_mem_cons.mpr ⟨by simp [hopening], hinfix (by simp [hclosing]) ih (by simp)⟩

/-! ## Powers -/

def Category.tightness : Category → Nat
  | sum => 10
  | product => 20
  | power => 30
  | unary => signPower

theorem Category.of_tightness_le {p : Category → Prop} (hpower : p unary → p power)
    (hproduct : p power → p product) (hsum : p product → p sum) {c d : Category}
    (hle : d.tightness ≤ c.tightness) (h : p c) : p d := by
  cases d with
  | sum =>
    cases c with
    | sum => exact h
    | product => exact hsum h
    | power => exact hsum (hproduct h)
    | unary => exact hsum (hproduct (hpower h))
  | product =>
    cases c with
    | sum => simp [tightness] at hle
    | product => exact h
    | power => exact hproduct h
    | unary => exact hproduct (hpower h)
  | power =>
    cases c with
    | power => exact h
    | unary => exact hpower h
    | _ => simp [tightness] at hle
  | unary =>
    cases c with
    | unary => exact h
    | _ => simp [tightness, signPower] at hle

theorem Derives.loosen {c d : Category} {ss : List Symbol} {t : Tree} (h : Derives c ss t)
    (hle : d.tightness ≤ c.tightness) : Derives d ss t :=
  Category.of_tightness_le (p := fun c => Derives c ss t) .ofUnary .ofPower .ofProduct hle h

theorem Category.tightness_gap (c : Category) : (11 ≤ c.tightness → 20 ≤ c.tightness) ∧
    (21 ≤ c.tightness → 30 ≤ c.tightness) ∧ (31 ≤ c.tightness → signPower ≤ c.tightness) := by
  cases c <;> decide

/-- The least power of what may stand to the left of an operator. -/
def Binding.leftPower (b : Binding) : Nat :=
  match b.associativity with
  | .left => b.power
  | .right => b.power + 1

theorem Binding.power_le_leftPower (b : Binding) : b.power ≤ b.leftPower := by
  unfold Binding.leftPower
  split <;> omega

theorem Binding.power_le_rightPower (b : Binding) : b.power ≤ b.rightPower := by
  unfold Binding.rightPower
  split <;> omega

theorem binding_arithmetic (k : Kind) : Table.arithmetic.binding k =
    match k with
    | .plus | .dash => some ⟨10, .left⟩
    | .star | .slash => some ⟨20, .left⟩
    | .caret => some ⟨30, .right⟩
    | _ => none := by
  cases k <;> rfl

theorem opening_arithmetic (k : Kind) : Table.arithmetic.opening k =
    match k with
    | .number => some .number
    | .plus | .dash => some .sign
    | .openParen => some .group
    | _ => none := by
  cases k <;> rfl

theorem power_lt_rightPower_iff {j k : Kind} {b d : Binding}
    (hb : Table.arithmetic.binding j = some b) (hd : Table.arithmetic.binding k = some d) :
    d.power < b.rightPower ↔ d.leftPower ≤ b.power := by
  rw [binding_arithmetic] at hb hd
  cases j <;> simp only [reduceCtorEq, Option.some.injEq] at hb <;> subst hb <;>
    cases k <;> simp only [reduceCtorEq, Option.some.injEq] at hd <;> subst hd <;>
      simp [Binding.rightPower, Binding.leftPower]

theorem binding_eq_some_iff {k : Kind} {b : Binding} : Table.arithmetic.binding k = some b ↔
    (k = .plus ∨ k = .dash) ∧ b = ⟨10, .left⟩ ∨ (k = .star ∨ k = .slash) ∧ b = ⟨20, .left⟩ ∨
      k = .caret ∧ b = ⟨30, .right⟩ := by
  rw [binding_arithmetic]
  cases k <;> simp [eq_comm]

theorem power_lt_signPower {k : Kind} {b : Binding} (hb : Table.arithmetic.binding k = some b) :
    b.power < signPower := by
  obtain ⟨-, rfl⟩ | ⟨-, rfl⟩ | ⟨-, rfl⟩ := binding_eq_some_iff.mp hb <;> decide

theorem exists_operator_of_binding {k : Kind} {b : Binding}
    (hb : Table.arithmetic.binding k = some b) : ∃ o, Operator.ofKind? k = some o := by
  rw [binding_arithmetic] at hb
  cases k <;> simp_all [Operator.ofKind?]

theorem Derives.operation {s : Symbol} {o : Operator} {b : Binding} {c d : Category}
    {ls rs : List Symbol} {l r : Tree} (hs : Operator.ofKind? s.kind = some o)
    (hb : Table.arithmetic.binding s.kind = some b) (hl : Derives c ls l)
    (hc : b.leftPower ≤ c.tightness) (hr : Derives d rs r) (hd : b.rightPower ≤ d.tightness) :
    ∃ e : Category, e.tightness = b.power ∧ Derives e (ls ++ s :: rs) (.operation o l r) := by
  obtain ⟨hk, rfl⟩ | ⟨hk, rfl⟩ | ⟨hk, rfl⟩ := binding_eq_some_iff.mp hb
  · have ho : s.kind = .plus ∧ o = .add ∨ s.kind = .dash ∧ o = .sub := by
      rcases hk with hk | hk <;> simp_all [Operator.ofKind?]
    exact ⟨.sum, rfl, .sum ho (hl.loosen hc) (hr.loosen (d.tightness_gap.1 hd))⟩
  · have ho : s.kind = .star ∧ o = .mul ∨ s.kind = .slash ∧ o = .div := by
      rcases hk with hk | hk <;> simp_all [Operator.ofKind?]
    exact ⟨.product, rfl, .product ho (hl.loosen hc) (hr.loosen (d.tightness_gap.2.1 hd))⟩
  · obtain rfl : o = .pow := by simp_all [Operator.ofKind?]
    exact ⟨.power, rfl, .power hk (hl.loosen (c.tightness_gap.2.2 hc)) (hr.loosen hd)⟩

/-- All operators are one case of an induction: what stands on each side of one is as tight as it
asks. -/
@[elab_as_elim]
theorem Derives.induction_operation
    {motive : ∀ (c : Category) (ss : List Symbol) (t : Tree), Derives c ss t → Prop}
    (loosen : ∀ {c d : Category} {ss : List Symbol} {t : Tree} (h : Derives c ss t)
      (hle : d.tightness ≤ c.tightness), motive c ss t h → motive d ss t (h.loosen hle))
    (operation : ∀ {s : Symbol} {o : Operator} {b : Binding} {c d e : Category}
      {ls rs : List Symbol} {l r : Tree} (_ : Operator.ofKind? s.kind = some o)
      (_ : Table.arithmetic.binding s.kind = some b) (hl : Derives c ls l)
      (_ : b.leftPower ≤ c.tightness) (hr : Derives d rs r) (_ : b.rightPower ≤ d.tightness)
      (_ : e.tightness = b.power) (h : Derives e (ls ++ s :: rs) (.operation o l r)),
      motive c ls l hl → motive d rs r hr → motive e (ls ++ s :: rs) (.operation o l r) h)
    (signed : ∀ {s : Symbol} {negative : Bool} {ss : List Symbol} {t : Tree}
      (hs : s.kind = .plus ∧ negative = false ∨ s.kind = .dash ∧ negative = true)
      (h : Derives .unary ss t), motive .unary ss t h →
      motive .unary (s :: ss) (.signed negative t) (.signed hs h))
    (number : ∀ {s : Symbol} (hs : s.kind = .number),
      motive .unary [s] (.number s.lexeme) (.number hs))
    (group : ∀ {opening closing : Symbol} {ss : List Symbol} {t : Tree}
      (hopening : opening.kind = .openParen) (hclosing : closing.kind = .closeParen)
      (h : Derives .sum ss t), motive .sum ss t h →
      motive .unary (opening :: (ss ++ [closing])) (.group t) (.group hopening hclosing h))
    {c : Category} {ss : List Symbol} {t : Tree} (h : Derives c ss t) : motive c ss t h := by
  induction h with
  | ofProduct h ih => exact loosen h (by decide) ih
  | ofPower h ih => exact loosen h (by decide) ih
  | ofUnary h ih => exact loosen h (by decide) ih
  | @sum s o ls rs l r hs hl hr ihl ihr =>
    have ho : Operator.ofKind? s.kind = some o := by
      rcases hs with ⟨hs, rfl⟩ | ⟨hs, rfl⟩ <;> rw [hs] <;> rfl
    have hb : Table.arithmetic.binding s.kind = some ⟨10, .left⟩ :=
      binding_eq_some_iff.mpr (.inl ⟨hs.imp And.left And.left, rfl⟩)
    exact operation ho hb hl (by decide) hr (by decide) rfl (.sum hs hl hr) ihl ihr
  | @product s o ls rs l r hs hl hr ihl ihr =>
    have ho : Operator.ofKind? s.kind = some o := by
      rcases hs with ⟨hs, rfl⟩ | ⟨hs, rfl⟩ <;> rw [hs] <;> rfl
    have hb : Table.arithmetic.binding s.kind = some ⟨20, .left⟩ :=
      binding_eq_some_iff.mpr (.inr (.inl ⟨hs.imp And.left And.left, rfl⟩))
    exact operation ho hb hl (by decide) hr (by decide) rfl (.product hs hl hr) ihl ihr
  | @power s ls rs l r hs hl hr ihl ihr =>
    have ho : Operator.ofKind? s.kind = some .pow := by rw [hs]; rfl
    have hb : Table.arithmetic.binding s.kind = some ⟨30, .right⟩ :=
      binding_eq_some_iff.mpr (.inr (.inr ⟨hs, rfl⟩))
    exact operation ho hb hl (by decide) hr (by decide) rfl (.power hs hl hr) ihl ihr
  | signed hs h ih => exact signed hs h ih
  | number hs => exact number hs
  | group hopening hclosing h ih => exact group hopening hclosing h ih

end Dialects.Expr
