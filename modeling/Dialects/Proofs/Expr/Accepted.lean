import Dialects.Proofs.Expr.Rules

/-!
# Accepted arithmetic

Where climbing powers succeeds, the tokens that it took are derived by the grammar, for a tree of
the value that it gave.
-/

namespace Dialects.Expr

open Climb

/-! ## The operator in front -/

/-- Whether the operator in front, if there is one, may stand behind what a category derives. -/
def Fits (c : Category) (ts : List (Token Symbol)) : Prop :=
  ∀ b ∈ Table.arithmetic.binding (frontKind ts), b.leftPower ≤ c.tightness

/-- Whether the operator in front, if there is one, has less than some power. -/
def Looser (power : Nat) (ts : List (Token Symbol)) : Prop :=
  ∀ b ∈ Table.arithmetic.binding (frontKind ts), b.power < power

theorem Fits.mono {c d : Category} {ts : List (Token Symbol)} (h : Fits c ts)
    (hle : c.tightness ≤ d.tightness) : Fits d ts := fun b hb => (h b hb).trans hle

theorem fits_unary (ts : List (Token Symbol)) : Fits .unary ts := by
  intro b hb
  obtain ⟨-, rfl⟩ | ⟨-, rfl⟩ | ⟨-, rfl⟩ := binding_eq_some_iff.mp hb <;> decide

theorem looser_iff_fits {k : Kind} {b : Binding} {c : Category}
    (hb : Table.arithmetic.binding k = some b) (hc : c.tightness = b.power)
    (ts : List (Token Symbol)) : Looser b.rightPower ts ↔ Fits c ts := by
  refine forall₂_congr fun d hd => ?_
  rw [power_lt_rightPower_iff hb hd, hc]

theorem looser_signPower (ts : List (Token Symbol)) : Looser signPower ts :=
  fun _ hb => power_lt_signPower hb

theorem binding_of_closeParen {t : Token Symbol} (h : t.symbol.kind = .closeParen)
    (ts : List (Token Symbol)) : Table.arithmetic.binding (frontKind (t :: ts)) = none := by
  rw [frontKind_cons, h]
  rfl

/-! ## What is read is derived -/

/-- Whether tokens derived for a tree have been read between two states, with the value of the
tree and at most so many levels below. -/
def HasRead (levels power : Nat) (s : Climber) (x : Double) (s' : Climber) : Prop :=
  ∃ ts tree, ∃ c : Category, s.stream.ahead = ts ++ s'.stream.ahead ∧ s'.depth = s.depth ∧
    Derives c (ts.map Token.symbol) tree ∧ tree.value? = some x ∧ tree.depth ≤ levels ∧
    power ≤ c.tightness ∧ Fits c s'.stream.ahead

def ReadsSoundly (levels : Nat) : Prop :=
  ∀ power s x s', power ≤ signPower → (expressionWithin .arithmetic levels power).runFrom s = (.ok x, s') →
    ∃ below, levels = below + 1 ∧ HasRead below power s x s' ∧ Looser power s'.stream.ahead

section

variable {levels power : Nat} {s s' : Climber} {x : Double} {t : Token Symbol}
  {ts : List (Token Symbol)}

theorem hasRead_number (hpower : power ≤ signPower) (hahead : s.stream.ahead = t :: ts)
    (ht : t.symbol.kind = .number) (hrun : Climb.number.runFrom s = (.ok x, s')) :
    HasRead levels power s x s' := by
  rw [runFrom_number, Climber.current_of_ahead hahead] at hrun
  obtain ⟨hread, rfl⟩ := Prod.mk.inj hrun
  split at hread
  · rename_i y hy
    obtain rfl := Except.ok.inj hread
    exact ⟨[t], .number t.symbol.lexeme, .unary, by rw [hahead, Climber.ahead_advanced hahead]; rfl, rfl,
      .number ht, hy, Nat.zero_le _, hpower, fits_unary _⟩
  · cases hread

theorem hasRead_signed (hpower : power ≤ signPower) (h : ReadsSoundly levels)
    (hahead : s.stream.ahead = t :: ts) (ht : t.symbol.kind = .plus ∨ t.symbol.kind = .dash)
    (hrun : (signed (expressionWithin .arithmetic levels)).runFrom s = (.ok x, s')) :
    HasRead levels power s x s' := by
  rw [runFrom_signed, goOn_eq_ok, hahead, frontKind_cons] at hrun
  obtain ⟨y, s₁, hoperand, hresult⟩ := hrun
  obtain ⟨rfl, rfl⟩ : _ = x ∧ s₁ = s' := by simpa using hresult
  obtain ⟨below, rfl, ⟨us, tree, c, hsplit, hdepth, hderives, hvalue, hle, hc, -⟩, -⟩ :=
    h signPower s.advanced y s₁ le_rfl hoperand
  rw [Climber.ahead_advanced hahead] at hsplit
  have hunary : Derives .unary (us.map Token.symbol) tree := hderives.loosen hc
  refine ⟨t :: us, .signed (t.symbol.kind = .dash) tree, .unary, by rw [hahead, hsplit]; rfl, hdepth,
    .signed ?_ hunary, ?_, ?_, hpower, fits_unary _⟩
  · rcases ht with ht | ht <;> simp [ht]
  · simp [Tree.value?, hvalue]
  · simp only [Tree.depth]
    omega

theorem hasRead_group (hpower : power ≤ signPower) (h : ReadsSoundly levels)
    (hahead : s.stream.ahead = t :: ts) (ht : t.symbol.kind = .openParen)
    (hrun : (group (expressionWithin .arithmetic levels)).runFrom s = (.ok x, s')) :
    HasRead levels power s x s' := by
  rw [runFrom_group, goOn_eq_ok] at hrun
  obtain ⟨y, s₁, hinner, hrun⟩ := hrun
  obtain ⟨closing, s₂, hexpect, hresult⟩ := goOn_eq_ok.mp hrun
  obtain ⟨rfl, rfl⟩ : y = x ∧ s₂ = s' := by simpa using hresult
  obtain ⟨below, rfl, ⟨us, tree, c, hsplit, hdepth, hderives, hvalue, hle, -, -⟩, -⟩ :=
    h 0 s.advanced y s₁ (Nat.zero_le _) hinner
  rw [Climber.ahead_advanced hahead] at hsplit
  have hsum : Derives .sum (us.map Token.symbol) tree := hderives.loosen (by cases c <;> decide)
  rw [runFrom_expect] at hexpect
  split_ifs at hexpect with hkind
  · obtain ⟨u, vs, hahead₁, hu⟩ := exists_cons_of_frontKind hkind (by decide)
    obtain ⟨-, rfl⟩ := Prod.mk.inj hexpect
    refine ⟨t :: (us ++ [u]), .group tree, .unary, ?_, hdepth, ?_, hvalue, ?_, hpower, fits_unary _⟩
    · rw [hahead, hsplit, hahead₁, Climber.ahead_advanced hahead₁]
      simp
    · simpa using Derives.group ht hu hsum
    · simp only [Tree.depth]
      omega
  · simp at hexpect

theorem hasRead_operand (hpower : power ≤ signPower) (h : ReadsSoundly levels)
    (hrun : (operand .arithmetic (expressionWithin .arithmetic levels)).runFrom s = (.ok x, s')) :
    HasRead levels power s x s' := by
  cases hopening : Table.arithmetic.opening (frontKind s.stream.ahead) with
  | none =>
    rw [runFrom_operand_of_none (by rwa [kind_current])] at hrun
    simp at hrun
  | some o =>
    obtain ⟨t, ts, hahead, ht⟩ := exists_cons_of_opening hopening
    rw [runFrom_operand (by rwa [kind_current])] at hrun
    rw [← ht] at hopening
    cases o with
    | number => exact hasRead_number hpower hahead (opening_number_iff.mp hopening) hrun
    | sign => exact hasRead_signed hpower h hahead (opening_sign_iff.mp hopening) hrun
    | group => exact hasRead_group hpower h hahead (opening_group_iff.mp hopening) hrun

theorem rightPower_le_signPower {k : Kind} {b : Binding}
    (hb : Table.arithmetic.binding k = some b) : b.rightPower ≤ signPower := by
  obtain ⟨-, rfl⟩ | ⟨-, rfl⟩ | ⟨-, rfl⟩ := binding_eq_some_iff.mp hb <;> decide

theorem hasRead_operation (h : ReadsSoundly levels) {s₁ : Climber} {left : Double} {b : Binding}
    (hleft : HasRead levels power s left s₁)
    (hb : Table.arithmetic.binding (frontKind s₁.stream.ahead) = some b) (hp : power ≤ b.power)
    (hrun : (operation (expressionWithin .arithmetic levels) left b.rightPower).runFrom s₁ =
      (.ok x, s')) :
    HasRead levels power s x s' ∧ s'.stream.ahead.length < s₁.stream.ahead.length := by
  obtain ⟨us, l, c, hsplit, hdepth, hl, hvalue, hle, -, hfits⟩ := hleft
  obtain ⟨t, ts, hahead, ht⟩ := exists_cons_of_binding hb
  rw [runFrom_operation, goOn_eq_ok, Climber.current_of_ahead hahead] at hrun
  obtain ⟨y, s₂, hright, happlied⟩ := hrun
  obtain ⟨below, rfl, ⟨vs, r, d, hsplit', hdepth', hr, hvalue', hle', hd, -⟩, hlooser⟩ :=
    h b.rightPower s₁.advanced y s₂ (rightPower_le_signPower hb) hright
  rw [Climber.ahead_advanced hahead] at hsplit'
  obtain ⟨o, ho⟩ := exists_operator_of_binding hb
  rw [applied_eq (ht ▸ ho)] at happlied
  obtain ⟨rfl, rfl⟩ : o.apply left y = x ∧ s₂ = s' := by simpa using happlied
  obtain ⟨e, he, hderives⟩ := Derives.operation (ht ▸ ho) (ht ▸ hb) hl (hfits b hb) hr hd
  have hshorter : s₁.stream.ahead.length = vs.length + s₂.stream.ahead.length + 1 := by
    simp [hahead, hsplit']
  refine ⟨⟨us ++ t :: vs, .operation o l r, e, ?_, hdepth'.trans hdepth, by simpa using hderives, ?_, ?_,
    by omega, (looser_iff_fits hb he _).mp hlooser⟩, by omega⟩
  · rw [hsplit, hahead, hsplit']
    simp
  · simp [Tree.value?, hvalue, hvalue']
  · simp only [Tree.depth]
    omega

theorem hasRead_operations (h : ReadsSoundly levels) {s₁ : Climber} {left : Double}
    (hleft : HasRead levels power s left s₁)
    (hrun : allOperations .arithmetic (expressionWithin .arithmetic levels) power left s₁ =
      (.ok x, s')) : HasRead levels power s x s' ∧ Looser power s'.stream.ahead := by
  induction hn : s₁.stream.ahead.length using Nat.strong_induction_on generalizing left s₁ with
  | _ n ih =>
    by_cases hlooser : Looser power s₁.stream.ahead
    · rw [allOperations_of_stop (by rwa [kind_current])] at hrun
      obtain ⟨rfl, rfl⟩ : left = x ∧ s₁ = s' := by simpa using hrun
      exact ⟨hleft, hlooser⟩
    · simp only [Looser] at hlooser
      push Not at hlooser
      obtain ⟨b, hb, hp⟩ := hlooser
      rw [allOperations_of_go_on rfl (forward_expressionWithin _ _) (by rwa [kind_current]) hp,
        goOn_eq_ok] at hrun
      obtain ⟨y, s₂, hoperation, hrun⟩ := hrun
      obtain ⟨hread, hlt⟩ := hasRead_operation h hleft hb hp hoperation
      exact ih _ (hn ▸ hlt) hread hrun rfl

end

theorem readsSoundly (levels : Nat) : ReadsSoundly levels := by
  induction levels with
  | zero =>
    intro power s x s' _ hrun
    obtain ⟨below, hbelow, -⟩ := runFrom_expressionWithin_eq_ok.mp hrun
    omega
  | succ levels ih =>
    intro power s x s' hpower hrun
    obtain ⟨below, hbelow, -, left, s₁, s₂, hleft, hoperations, rfl⟩ :=
      runFrom_expressionWithin_eq_ok.mp hrun
    obtain rfl := Nat.succ.inj hbelow
    obtain ⟨⟨ts, tree, c, hsplit, hdepth, hread⟩, hlooser⟩ :=
      hasRead_operations ih (hasRead_operand hpower ih hleft) hoperations
    exact ⟨levels, rfl, ⟨ts, tree, c, hsplit, by simp [hdepth], hread⟩, hlooser⟩

end Dialects.Expr
