import Dialects.Proofs.Expr.Grammar
import Dialects.Expr.Scan
import Dialects.Scan

/-!
# Chains of numbers and operators

A chain is split at its loosest operator, and so are the two parts. `bind` says how tightly each
operator binds.
-/

namespace Dialects.Expr

/-! ## Tables of operators -/

def Operator.kind : Operator → Kind
  | add => .plus
  | sub => .dash
  | mul => .star
  | div => .slash
  | pow => .caret

@[simp] theorem Operator.ofKind?_kind (o : Operator) : ofKind? o.kind = some o := by
  cases o <;> rfl

/-- Whether operators of one power share their associativity. -/
def SharesAssociativity (bind : Operator → Binding) : Prop :=
  ∀ o p, (bind o).power = (bind p).power → (bind o).associativity = (bind p).associativity

/-- Whether a table lets an operand be a number, and only operators join two operands. -/
structure Table.Binds (table : Table) (bind : Operator → Binding) : Prop where
  number : table.opening .number = some .number
  binding (k : Kind) : table.binding k = (Operator.ofKind? k).map bind

/-- Lets every operator join two operands. -/
def Table.withOperators (t : Table) (bind : Operator → Binding) : Table :=
  let t := t.withBinding .plus (bind .add)
  let t := t.withBinding .dash (bind .sub)
  let t := t.withBinding .star (bind .mul)
  let t := t.withBinding .slash (bind .div)
  t.withBinding .caret (bind .pow)

theorem Table.binds_withOperators {t : Table} (hnumber : t.opening .number = some .number)
    (hother : ∀ k, Operator.ofKind? k = none → t.binding k = none) (bind : Operator → Binding) :
    (t.withOperators bind).Binds bind where
  number := hnumber
  binding k := by
    cases hk : Operator.ofKind? k with
    | none =>
      rw [Option.map_none, ← hother k hk]
      cases k <;> first | rfl | simp [Operator.ofKind?] at hk
    | some o => cases k <;> simp [Operator.ofKind?] at hk <;> subst hk <;> rfl

section

variable {bind : Operator → Binding} (hshared : SharesAssociativity bind) (o p : Operator)

include hshared

theorem SharesAssociativity.power_lt_rightPower_iff :
    (bind p).power < (bind o).rightPower ↔ (bind p).leftPower ≤ (bind o).power := by
  have h := hshared o p
  unfold Binding.rightPower Binding.leftPower
  cases ho : (bind o).associativity <;> cases hp : (bind p).associativity <;> simp_all <;> omega

theorem SharesAssociativity.leftPower_le_or_rightPower_le :
    (bind o).leftPower ≤ (bind p).power ∨ (bind p).rightPower ≤ (bind o).power := by
  have h := hshared.power_lt_rightPower_iff p o
  omega

end

/-! ## Chains -/

structure Numeral where
  lexeme : String
  position : Nat

def Numeral.token (n : Numeral) : Token Symbol := ⟨⟨.number, n.lexeme⟩, n.position⟩

/-- An operator and the number behind it. -/
structure Link where
  operator : Operator
  lexeme : String
  position : Nat
  operand : Numeral

def Link.token (l : Link) : Token Symbol := ⟨⟨l.operator.kind, l.lexeme⟩, l.position⟩

structure Chain where
  first : Numeral
  links : List Link

namespace Chain

def tokens (c : Chain) : List (Token Symbol) :=
  c.first.token :: c.links.flatMap fun l => [l.token, l.operand.token]

theorem tokens_append (first : Numeral) (before : List Link) (link : Link) (after : List Link) :
    tokens ⟨first, before ++ link :: after⟩ =
      tokens ⟨first, before⟩ ++ link.token :: tokens ⟨link.operand, after⟩ := by
  simp [tokens]

/-- The longest beginning of a chain whose operators all have at least some power. -/
def upTo (bind : Operator → Binding) (m : Nat) (c : Chain) : Chain :=
  ⟨c.first, c.links.takeWhile fun l => m ≤ (bind l.operator).power⟩

end Chain

/-- Whether a tree splits a chain at its loosest operators: at the last of them where they group to
the left, and at the first where they group to the right. -/
inductive Splits (bind : Operator → Binding) : Chain → Tree → Prop
  | number (n : Numeral) : Splits bind ⟨n, []⟩ (.number n.lexeme)
  | last {first : Numeral} {before after : List Link} {link : Link} {l r : Tree}
    (hassociativity : (bind link.operator).associativity = .left)
    (hbefore : ∀ k ∈ before, (bind link.operator).power ≤ (bind k.operator).power)
    (hafter : ∀ k ∈ after, (bind link.operator).power < (bind k.operator).power)
    (hl : Splits bind ⟨first, before⟩ l) (hr : Splits bind ⟨link.operand, after⟩ r) :
    Splits bind ⟨first, before ++ link :: after⟩ (.operation link.operator l r)
  | first {first : Numeral} {before after : List Link} {link : Link} {l r : Tree}
    (hassociativity : (bind link.operator).associativity = .right)
    (hbefore : ∀ k ∈ before, (bind link.operator).power < (bind k.operator).power)
    (hafter : ∀ k ∈ after, (bind link.operator).power ≤ (bind k.operator).power)
    (hl : Splits bind ⟨first, before⟩ l) (hr : Splits bind ⟨link.operand, after⟩ r) :
    Splits bind ⟨first, before ++ link :: after⟩ (.operation link.operator l r)

section

variable {bind : Operator → Binding}

/-- An operator that a chain may be split at: it takes all in front of it as its left operand, and
all behind it as its right. -/
def IsLoosest (bind : Operator → Binding) (before : List Link) (link : Link) (after : List Link) :
    Prop :=
  (∀ k ∈ before, (bind link.operator).leftPower ≤ (bind k.operator).power) ∧
    ∀ k ∈ after, (bind link.operator).rightPower ≤ (bind k.operator).power

theorem isLoosest_of_left {before after : List Link} {link : Link}
    (h : (bind link.operator).associativity = .left) : IsLoosest bind before link after ↔
      (∀ k ∈ before, (bind link.operator).power ≤ (bind k.operator).power) ∧
        ∀ k ∈ after, (bind link.operator).power < (bind k.operator).power := by
  simp only [IsLoosest, Binding.leftPower, Binding.rightPower, h, Nat.add_one_le_iff]

theorem isLoosest_of_right {before after : List Link} {link : Link}
    (h : (bind link.operator).associativity = .right) : IsLoosest bind before link after ↔
      (∀ k ∈ before, (bind link.operator).power < (bind k.operator).power) ∧
        ∀ k ∈ after, (bind link.operator).power ≤ (bind k.operator).power := by
  simp only [IsLoosest, Binding.leftPower, Binding.rightPower, h, Nat.add_one_le_iff]

theorem exists_isLoosest (hshared : SharesAssociativity bind) {links : List Link} (h : links ≠ []) :
    ∃ before link after, links = before ++ link :: after ∧ IsLoosest bind before link after := by
  induction links with
  | nil => exact absurd rfl h
  | cons first rest ih =>
    by_cases hrest : rest = []
    · exact ⟨[], first, [], by rw [hrest]; rfl, by simp, by simp⟩
    · obtain ⟨before, link, after, rfl, hbefore, hafter⟩ := ih hrest
      obtain hle | hle := hshared.leftPower_le_or_rightPower_le link.operator first.operator
      · exact ⟨first :: before, link, after, rfl, List.forall_mem_cons.mpr ⟨hle, hbefore⟩, hafter⟩
      · -- The first operator is as loose as the one that is loosest behind it.
        refine ⟨[], first, _, rfl, by simp, fun k hk => hle.trans ?_⟩
        rcases List.mem_append.mp hk with hk | hk
        · exact (bind link.operator).power_le_leftPower.trans (hbefore k hk)
        · rcases List.mem_cons.mp hk with rfl | hk
          · exact le_rfl
          · exact (bind link.operator).power_le_rightPower.trans (hafter k hk)

theorem IsLoosest.unique (hshared : SharesAssociativity bind)
    {before before' after after' : List Link} {link link' : Link}
    (h : IsLoosest bind before link after) (h' : IsLoosest bind before' link' after')
    (heq : before ++ link :: after = before' ++ link' :: after') :
    before = before' ∧ link = link' ∧ after = after' := by
  -- Of two operators that both take all the others, each would be an operand of the other.
  have hnot {o p : Operator} (hright : (bind o).rightPower ≤ (bind p).power)
      (hleft : (bind p).leftPower ≤ (bind o).power) : False := by
    have hlt := (hshared.power_lt_rightPower_iff o p).mpr hleft
    omega
  rcases List.append_eq_append_iff.mp heq with ⟨between, rfl, htail⟩ | ⟨between, rfl, htail⟩
  · cases between with
    | nil => simpa using htail
    | cons k between =>
      obtain ⟨rfl, rfl⟩ := List.cons_eq_cons.mp htail
      exact (hnot (h.2 link' (by simp)) (h'.1 link (by simp))).elim
  · cases between with
    | nil => simpa [eq_comm] using htail
    | cons k between =>
      obtain ⟨rfl, rfl⟩ := List.cons_eq_cons.mp htail
      exact (hnot (h'.2 link (by simp)) (h.1 link' (by simp))).elim

theorem splits_iff {first : Numeral} {links : List Link} {tree : Tree} :
    Splits bind ⟨first, links⟩ tree ↔ links = [] ∧ tree = .number first.lexeme ∨
      ∃ before link after l r, links = before ++ link :: after ∧ IsLoosest bind before link after ∧
        Splits bind ⟨first, before⟩ l ∧ Splits bind ⟨link.operand, after⟩ r ∧
        tree = .operation link.operator l r := by
  constructor
  · intro h
    cases h with
    | number n => exact .inl ⟨rfl, rfl⟩
    | last hassociativity hbefore hafter hl hr =>
      have hloosest := (isLoosest_of_left hassociativity).mpr ⟨hbefore, hafter⟩
      exact .inr ⟨_, _, _, _, _, rfl, hloosest, hl, hr, rfl⟩
    | first hassociativity hbefore hafter hl hr =>
      have hloosest := (isLoosest_of_right hassociativity).mpr ⟨hbefore, hafter⟩
      exact .inr ⟨_, _, _, _, _, rfl, hloosest, hl, hr, rfl⟩
  · rintro (⟨rfl, rfl⟩ | ⟨before, link, after, l, r, rfl, hloosest, hl, hr, rfl⟩)
    · exact .number first
    · cases hassociativity : (bind link.operator).associativity with
      | left =>
        obtain ⟨hbefore, hafter⟩ := (isLoosest_of_left hassociativity).mp hloosest
        exact .last hassociativity hbefore hafter hl hr
      | right =>
        obtain ⟨hbefore, hafter⟩ := (isLoosest_of_right hassociativity).mp hloosest
        exact .first hassociativity hbefore hafter hl hr

/-- Every chain is split in one way. -/
theorem existsUnique_splits (hshared : SharesAssociativity bind) (chain : Chain) :
    ∃! tree, Splits bind chain tree := by
  obtain ⟨first, links⟩ := chain
  induction hn : links.length using Nat.strong_induction_on generalizing first links with
  | _ n ih =>
    by_cases hlinks : links = []
    · refine ⟨.number first.lexeme, splits_iff.mpr (.inl ⟨hlinks, rfl⟩), fun tree htree => ?_⟩
      obtain ⟨-, rfl⟩ | ⟨before, link, after, -, -, hcons, -⟩ := splits_iff.mp htree
      · rfl
      · simp [hlinks] at hcons
    · obtain ⟨before, link, after, rfl, hloosest⟩ := exists_isLoosest hshared hlinks
      rw [List.length_append, List.length_cons] at hn
      obtain ⟨l, hl, hlunique⟩ := ih before.length (by omega) first before rfl
      obtain ⟨r, hr, hrunique⟩ := ih after.length (by omega) link.operand after rfl
      refine ⟨.operation link.operator l r,
        splits_iff.mpr (.inr ⟨before, link, after, l, r, rfl, hloosest, hl, hr, rfl⟩), ?_⟩
      intro tree htree
      obtain ⟨hnil, -⟩ | ⟨before', link', after', l', r', heq, hloosest', hl', hr', rfl⟩ :=
        splits_iff.mp htree
      · exact absurd hnil hlinks
      · obtain ⟨rfl, rfl, rfl⟩ := hloosest.unique hshared hloosest' heq
        rw [hlunique l' hl', hrunique r' hr']

end

end Dialects.Expr
