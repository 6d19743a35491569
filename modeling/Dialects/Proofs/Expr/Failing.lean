import Dialects.Proofs.Expr.Beginning
import Dialects.Proofs.Expr.Evaluate

/-!
# Where climbing powers fails

The tokens that have been taken begin what the grammar derives, and the failure is that of the token
behind them.
-/

namespace Dialects.Expr

open Climb

/-! ## Tokens to come -/

/-- The tokens from the place on, with the end. -/
def Stream.upcoming (s : Stream) : List (Token Symbol) := s.ahead ++ [s.endToken]

theorem Stream.exists_upcoming_eq (s : Stream) : ∃ rest, s.upcoming = s.current :: rest := by
  obtain ⟨passed, ahead, _, _⟩ := s
  cases ahead with
  | nil => exact ⟨[], rfl⟩
  | cons t ts => exact ⟨ts ++ _, rfl⟩

theorem upcoming_eq {s s' : Climber} {us : List (Token Symbol)}
    (hend : s'.stream.endToken = s.stream.endToken)
    (hahead : s.stream.ahead = us ++ s'.stream.ahead) :
    s.stream.upcoming = us ++ s'.stream.upcoming := by
  rw [Stream.upcoming, hahead, ← hend, List.append_assoc]
  rfl

theorem endToken_of_run {α : Type} {m : Climb α} {s s' : Climber} {result : Except Failure α}
    (hm : Keeps (fun s s' => s'.stream.endToken = s.stream.endToken) m)
    (hrun : m.runFrom s = (result, s')) : s'.stream.endToken = s.stream.endToken := by
  have hend := hm s
  rwa [hrun] at hend

theorem keeps_endToken (levels power : Nat) :
    Keeps (fun s s' => s'.stream.endToken = s.stream.endToken)
      (expressionWithin .arithmetic levels power) :=
  keeps_expressionWithin isKept_endToken .arithmetic levels power

theorem binding_eq_none_of_looser {ts : List (Token Symbol)} (h : Looser 0 ts) :
    Table.arithmetic.binding (frontKind ts) = none := by
  by_contra hsome
  obtain ⟨b, hb⟩ := Option.ne_none_iff_exists'.mp hsome
  exact absurd (h b hb) (Nat.not_lt_zero _)

/-! ## Operands that are due in an expression -/

/-- Whether an operand is due in an expression whose operators have at least some power. -/
def BeginsAt (power : Nat) (ss : List Symbol) (n : Nat) : Prop :=
  ∃ c : Category, power ≤ c.tightness ∧ Begins c ss n

section

variable {power n : Nat} {s : Symbol} {ss : List Symbol}

theorem beginsAt_start (hpower : power ≤ signPower) : BeginsAt power [] 0 :=
  ⟨.unary, hpower, .start .unary⟩

theorem beginsAt_zero : BeginsAt 0 ss n ↔ Begins .sum ss n := by
  constructor
  · rintro ⟨c, -, h⟩
    exact h.loosen (by cases c <;> decide)
  · intro h
    exact ⟨.sum, Nat.zero_le _, h⟩

theorem beginsAt_signed (hpower : power ≤ signPower) (hs : s.kind = .plus ∨ s.kind = .dash)
    (h : BeginsAt signPower ss n) : BeginsAt power (s :: ss) (n + 1) := by
  obtain ⟨c, hc, hbegins⟩ := h
  exact ⟨.unary, hpower, .signed hs (hbegins.loosen hc)⟩

theorem beginsAt_group (hpower : power ≤ signPower) (hs : s.kind = .openParen)
    (h : BeginsAt 0 ss n) : BeginsAt power (s :: ss) (n + 1) :=
  ⟨.unary, hpower, .group hs (beginsAt_zero.mp h)⟩

theorem beginsAt_operation {b : Binding} {c : Category} {ls : List Symbol} {l : Tree}
    (hb : Table.arithmetic.binding s.kind = some b) (hl : Derives c ls l)
    (hc : b.leftPower ≤ c.tightness) (hpower : power ≤ b.power) (h : BeginsAt b.rightPower ss n) :
    BeginsAt power (ls ++ s :: ss) (n + 1) := by
  obtain ⟨d, hd, hbegins⟩ := h
  obtain ⟨e, he, hwhole⟩ := Begins.operation hb hl hc hbegins hd
  exact ⟨e, he ▸ hpower, hwhole⟩

end

/-! ## Failures -/

/-- The failure of a token behind symbols in an expression with so many levels left to open: there
is no level left for the operand that is due, the token is a number that cannot be read, no operand
starts with it, or a group is not closed by it. -/
inductive Fails (levels power : Nat) (t : Token Symbol) : List Symbol → Failure → Prop
  | tooDeep {ss : List Symbol} (h : BeginsAt power ss levels) :
    Fails levels power t ss ⟨.tooDeep nestingLimit, t.position⟩
  | malformed {ss : List Symbol} {n : Nat} (h : BeginsAt power ss n) (hn : n < levels)
    (ht : t.symbol.kind = .number) (hread : Double.read? t.symbol.lexeme.toList = none) :
    Fails levels power t ss ⟨.malformedNumber t.symbol.lexeme, t.position⟩
  | unexpected {ss : List Symbol} {n : Nat} (h : BeginsAt power ss n) (hn : n < levels)
    (ht : Table.arithmetic.opening t.symbol.kind = none) : Fails levels power t ss t.unexpected
  | unclosed {before inner : List Symbol} {opening : Symbol} {n : Nat} {tree : Tree}
    (h : BeginsAt power before n) (hopening : opening.kind = .openParen)
    (hinner : Derives .sum inner tree) (ht : Table.arithmetic.binding t.symbol.kind = none)
    (hclose : t.symbol.kind ≠ .closeParen) :
    Fails levels power t (before ++ opening :: inner) (t.insteadOf .closeParen)

theorem Fails.lift {levels power power' : Nat} {t : Token Symbol} {before ss : List Symbol}
    {f : Failure} (h : Fails levels power t ss f)
    (hbefore : ∀ ss n, BeginsAt power ss n → BeginsAt power' (before ++ ss) (n + 1)) :
    Fails (levels + 1) power' t (before ++ ss) f := by
  cases h with
  | tooDeep h => exact .tooDeep (hbefore _ _ h)
  | malformed h hn ht hread => exact .malformed (hbefore _ _ h) (by omega) ht hread
  | unexpected h hn ht => exact .unexpected (hbefore _ _ h) (by omega) ht
  | unclosed h hopening hinner ht hclose =>
    rw [← List.append_assoc]
    exact .unclosed (hbefore _ _ h) hopening hinner ht hclose

/-- Whether a failure is that of a token to come. -/
def HasFailed (levels power : Nat) (s : Climber) (f : Failure) : Prop :=
  ∃ ts t rest, s.stream.upcoming = ts ++ t :: rest ∧ Fails levels power t (ts.map Token.symbol) f

def FailsSoundly (levels : Nat) : Prop :=
  ∀ power s f s', power ≤ signPower → s.depth + levels = nestingLimit →
    (expressionWithin .arithmetic levels power).runFrom s = (.error f, s') →
    HasFailed levels power s f

section

variable {levels power power' : Nat} {s s₁ s' : Climber} {f : Failure} {t : Token Symbol}
  {ts : List (Token Symbol)}

theorem hasFailed_current (h : Fails levels power s.stream.current [] f) :
    HasFailed levels power s f := by
  obtain ⟨rest, hrest⟩ := s.stream.exists_upcoming_eq
  exact ⟨[], s.stream.current, rest, hrest, h⟩

theorem HasFailed.lift {us : List (Token Symbol)} (h : HasFailed levels power s₁ f)
    (hus : s.stream.upcoming = us ++ s₁.stream.upcoming)
    (hbefore : ∀ ss n, BeginsAt power ss n →
      BeginsAt power' (us.map Token.symbol ++ ss) (n + 1)) :
    HasFailed (levels + 1) power' s f := by
  obtain ⟨ts, t, rest, hsplit, hfails⟩ := h
  refine ⟨us ++ ts, t, rest, by rw [hus, hsplit, List.append_assoc], ?_⟩
  rw [List.map_append]
  exact hfails.lift hbefore

theorem upcoming_advanced (hahead : s.stream.ahead = t :: ts) :
    s.stream.upcoming = [t] ++ s.advanced.stream.upcoming := by
  have hend : s.advanced.stream.endToken = s.stream.endToken := isKept_endToken.advance s
  exact upcoming_eq hend (by rw [hahead, Climber.ahead_advanced hahead]; rfl)

theorem hasFailed_number (hpower : power ≤ signPower) (hahead : s.stream.ahead = t :: ts)
    (ht : t.symbol.kind = .number) (hrun : Climb.number.runFrom s = (.error f, s')) :
    HasFailed (levels + 1) power s f := by
  rw [runFrom_number, Climber.current_of_ahead hahead] at hrun
  obtain ⟨hfailed, -⟩ := Prod.mk.inj hrun
  split at hfailed
  · cases hfailed
  · rename_i hread
    obtain rfl := Except.error.inj hfailed
    exact ⟨[], t, _, upcoming_advanced hahead,
      .malformed (beginsAt_start hpower) (Nat.succ_pos _) ht hread⟩

theorem hasFailed_signed (hpower : power ≤ signPower) (h : FailsSoundly levels)
    (hdepth : s.depth + levels = nestingLimit) (hahead : s.stream.ahead = t :: ts)
    (ht : t.symbol.kind = .plus ∨ t.symbol.kind = .dash)
    (hrun : (signed (expressionWithin .arithmetic levels)).runFrom s = (.error f, s')) :
    HasFailed (levels + 1) power s f := by
  rw [runFrom_signed, goOn_eq_error] at hrun
  obtain hoperand | ⟨x, s₁, -, hresult⟩ := hrun
  · exact (h signPower s.advanced f s' le_rfl hdepth hoperand).lift (upcoming_advanced hahead)
      fun ss n hss => beginsAt_signed hpower ht hss
  · simp at hresult

theorem hasFailed_group (hpower : power ≤ signPower) (h : FailsSoundly levels)
    (hdepth : s.depth + levels = nestingLimit) (hahead : s.stream.ahead = t :: ts)
    (ht : t.symbol.kind = .openParen)
    (hrun : (group (expressionWithin .arithmetic levels)).runFrom s = (.error f, s')) :
    HasFailed (levels + 1) power s f := by
  have hupcoming := upcoming_advanced hahead
  rw [runFrom_group, goOn_eq_error] at hrun
  obtain hinner | ⟨x, s₁, hinner, hrun⟩ := hrun
  · exact (h 0 s.advanced f s' (Nat.zero_le _) hdepth hinner).lift hupcoming
      fun ss n hss => beginsAt_group hpower ht hss
  · obtain ⟨below, -, ⟨us, tree, c, hsplit, -, hderives, -, -, -, -⟩, hlooser⟩ :=
      readsSoundly levels 0 s.advanced x s₁ (Nat.zero_le _) hinner
    have hsum : Derives .sum (us.map Token.symbol) tree := hderives.loosen (by cases c <;> decide)
    have hnone := binding_eq_none_of_looser hlooser
    have hupcoming' := upcoming_eq (endToken_of_run (keeps_endToken levels 0) hinner) hsplit
    obtain ⟨rest, hrest⟩ := s₁.stream.exists_upcoming_eq
    rw [runFrom_expect] at hrun
    split_ifs at hrun with hkind
    · simp at hrun
    · obtain rfl : s₁.stream.current.insteadOf .closeParen = f := by
        simpa using (Prod.mk.inj hrun).1
      refine ⟨t :: us, s₁.stream.current, rest, by simp [hupcoming, hupcoming', hrest], ?_⟩
      have hbefore : BeginsAt power ([] : List Symbol) 0 := beginsAt_start hpower
      exact .unclosed hbefore ht hsum (by rwa [kind_current]) (by rwa [kind_current])

theorem hasFailed_operand (hpower : power ≤ signPower) (h : FailsSoundly levels)
    (hdepth : s.depth + levels = nestingLimit)
    (hrun : (operand .arithmetic (expressionWithin .arithmetic levels)).runFrom s = (.error f, s')) :
    HasFailed (levels + 1) power s f := by
  cases hopening : Table.arithmetic.opening (frontKind s.stream.ahead) with
  | none =>
    rw [runFrom_operand_of_none (by rwa [kind_current])] at hrun
    obtain rfl : s.stream.current.unexpected = f := by simpa using (Prod.mk.inj hrun).1
    exact hasFailed_current
      (.unexpected (beginsAt_start hpower) (Nat.succ_pos _) (by rwa [kind_current]))
  | some o =>
    obtain ⟨t, ts, hahead, ht⟩ := exists_cons_of_opening hopening
    rw [runFrom_operand (by rwa [kind_current])] at hrun
    rw [← ht] at hopening
    cases o with
    | number => exact hasFailed_number hpower hahead (opening_number_iff.mp hopening) hrun
    | sign => exact hasFailed_signed hpower h hdepth hahead (opening_sign_iff.mp hopening) hrun
    | group => exact hasFailed_group hpower h hdepth hahead (opening_group_iff.mp hopening) hrun

theorem hasFailed_operation (h : FailsSoundly levels) (hdepth : s.depth + levels = nestingLimit)
    {left : Double} {b : Binding} (hleft : HasRead levels power s left s₁)
    (hend : s₁.stream.endToken = s.stream.endToken)
    (hb : Table.arithmetic.binding (frontKind s₁.stream.ahead) = some b) (hp : power ≤ b.power)
    (hrun : (operation (expressionWithin .arithmetic levels) left b.rightPower).runFrom s₁ =
      (.error f, s')) : HasFailed (levels + 1) power s f := by
  obtain ⟨us, l, c, hsplit, hdepth₁, hl, -, -, -, hfits⟩ := hleft
  obtain ⟨t, ts, hahead, ht⟩ := exists_cons_of_binding hb
  obtain ⟨o, ho⟩ := exists_operator_of_binding hb
  rw [runFrom_operation, goOn_eq_error, Climber.current_of_ahead hahead] at hrun
  obtain hright | ⟨y, s₂, -, happlied⟩ := hrun
  · have hlevels : s₁.advanced.depth + levels = nestingLimit := by rw [Climber.depth_advanced]; omega
    have hfailed := h b.rightPower s₁.advanced f s' (rightPower_le_signPower hb) hlevels hright
    have hupcoming : s.stream.upcoming = us ++ [t] ++ s₁.advanced.stream.upcoming := by
      rw [upcoming_eq hend hsplit, upcoming_advanced hahead, List.append_assoc]
    refine hfailed.lift hupcoming ?_
    intro ss n hss
    simpa using beginsAt_operation (ht ▸ hb) hl (hfits b hb) hp hss
  · simp [applied_eq (ht ▸ ho)] at happlied

theorem hasFailed_operations (h : FailsSoundly levels) (hdepth : s.depth + levels = nestingLimit)
    {left : Double} (hleft : HasRead levels power s left s₁)
    (hend : s₁.stream.endToken = s.stream.endToken)
    (hrun : allOperations .arithmetic (expressionWithin .arithmetic levels) power left s₁ =
      (.error f, s')) : HasFailed (levels + 1) power s f := by
  -- Each operation takes at least its operator, so fewer and fewer tokens are ahead.
  induction hn : s₁.stream.ahead.length using Nat.strong_induction_on generalizing left s₁ with
  | _ n ih =>
    by_cases hlooser : Looser power s₁.stream.ahead
    · rw [allOperations_of_stop (by rwa [kind_current])] at hrun
      simp at hrun
    · simp only [Looser] at hlooser
      push Not at hlooser
      obtain ⟨b, hb, hp⟩ := hlooser
      rw [allOperations_of_go_on rfl (forward_expressionWithin _ _) (by rwa [kind_current]) hp,
        goOn_eq_error] at hrun
      obtain hoperation | ⟨y, s₂, hoperation, hrun⟩ := hrun
      · exact hasFailed_operation h hdepth hleft hend hb hp hoperation
      · obtain ⟨hread, hlt⟩ := hasRead_operation (readsSoundly levels) hleft hb hp hoperation
        have hend' := endToken_of_run
          (keeps_operation isKept_endToken (keeps_endToken levels) left b.rightPower) hoperation
        exact ih _ (hn ▸ hlt) hread (hend'.trans hend) hrun rfl

end

theorem failsSoundly (levels : Nat) : FailsSoundly levels := by
  induction levels with
  | zero =>
    intro power s f s' hpower _ hrun
    rw [expressionWithin, runFrom_bind, runFrom_current, goOn_ok, runFrom_throw] at hrun
    obtain rfl : ⟨.tooDeep nestingLimit, s.stream.current.position⟩ = f := by
      simpa using (Prod.mk.inj hrun).1
    exact hasFailed_current (.tooDeep (beginsAt_start hpower))
  | succ levels ih =>
    intro power s f s' hpower hdepth hrun
    -- Opening a level takes no token, so the same are to come.
    have hopened : HasFailed (levels + 1) power { s with depth := s.depth + 1 } f := by
      rw [runFrom_expressionWithin_succ, if_neg (by omega), goOn_eq_error] at hrun
      obtain hrun | ⟨x, s₂, -, hleave⟩ := hrun
      · rw [goOn_eq_error] at hrun
        obtain hoperand | ⟨left, s₁, hoperand, hoperations⟩ := hrun
        · exact hasFailed_operand hpower ih (by simp only; omega) hoperand
        · have hend := endToken_of_run
            (keeps_operand isKept_endToken (keeps_endToken levels) .arithmetic) hoperand
          exact hasFailed_operations ih (by simp only; omega)
            (hasRead_operand hpower (readsSoundly levels) hoperand) hend hoperations
      · simp at hleave
    exact hopened

/-! ## Whole texts -/

theorem upcoming_ofTokens {tokens : List (Token Symbol)} {position : Nat} :
    (Stream.ofTokens (tokens ++ [(⟨.eof, position⟩ : Token Symbol)])).upcoming =
      tokens ++ [⟨.eof, position⟩] := by
  simp [Stream.ofTokens, Stream.upcoming, Symbol.eof, Stream.endToken]

theorem hasFailed_or_trailing {tokens : List (Token Symbol)} {f : Failure}
    (h : evaluateTokens tokens = .error f) :
    HasFailed nestingLimit 0 (Climber.ofTokens tokens) f ∨
      ∃ ts t rest tree, (Stream.ofTokens tokens).upcoming = ts ++ t :: rest ∧
        Derives .sum (ts.map Token.symbol) tree ∧ t.symbol.kind ≠ .eof ∧
        Table.arithmetic.binding t.symbol.kind = none ∧ f = t.trailing := by
  rw [evaluateTokens_eq] at h
  cases hrun : (expressionWithin .arithmetic nestingLimit 0).runFrom (Climber.ofTokens tokens) with
  | mk result s' =>
    rw [hrun] at h
    cases result with
    | error g =>
      obtain rfl : g = f := by simpa using h
      exact .inl (failsSoundly nestingLimit 0 _ g s' (Nat.zero_le _) rfl hrun)
    | ok x =>
      dsimp only at h
      split_ifs at h with hkind
      obtain rfl := Except.error.inj h
      -- A whole expression has been read, and the token behind it is no operator.
      obtain ⟨below, -, ⟨ts, tree, c, hsplit, -, hderives, -, -, -, -⟩, hlooser⟩ :=
        readsSoundly nestingLimit 0 _ x s' (Nat.zero_le _) hrun
      have hupcoming := upcoming_eq (endToken_of_run (keeps_endToken nestingLimit 0) hrun) hsplit
      obtain ⟨rest, hrest⟩ := s'.stream.exists_upcoming_eq
      refine .inr ⟨ts, s'.stream.current, rest, tree, by rw [← hrest]; exact hupcoming,
        hderives.loosen (by cases c <;> decide), by rwa [kind_current], ?_, rfl⟩
      rw [kind_current]
      exact binding_eq_none_of_looser hlooser

end Dialects.Expr
