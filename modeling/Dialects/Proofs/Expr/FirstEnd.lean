import Dialects.Proofs.Expr.Calls
import Dialects.Proofs.Expr.Evaluate
import Dialects.Proofs.Expr.Scan

/-!
# The first end

Nothing moves over an end, so the tokens behind the first one do not matter. Nor does it matter whether
the end was among the tokens or comes from the stream, but for where it stands.
-/

namespace Dialects.Expr

open Climb

/-! ## Streams up to the first end -/

namespace Stream

/-- The tokens ahead that are in front of an end. -/
def beforeEnd (s : Stream) : List (Token Symbol) := s.ahead.takeWhile (·.symbol.kind ≠ .eof)

/-- The first end among the tokens ahead, or that of the stream. -/
def firstEnd (s : Stream) : Token Symbol := (s.ahead.find? (·.symbol.kind = .eof)).getD s.endToken

theorem kind_firstEnd (s : Stream) : s.firstEnd.symbol.kind = .eof := by
  unfold firstEnd
  cases h : s.ahead.find? (·.symbol.kind = .eof) with
  | none => rfl
  | some t => simpa using List.find?_some h

theorem current_eq (s : Stream) : s.current = s.beforeEnd.headD s.firstEnd := by
  obtain ⟨passed, ahead, _, _⟩ := s
  cases ahead with
  | nil => rfl
  | cons t ts => by_cases ht : t.symbol.kind = .eof <;> simp [current, beforeEnd, firstEnd, ht]

theorem advance_of_front {s : Stream} (h : frontKind s.ahead ≠ .eof) :
    s.advance.beforeEnd = s.beforeEnd.tail ∧ s.advance.firstEnd = s.firstEnd := by
  obtain ⟨passed, ahead, _, _⟩ := s
  cases ahead with
  | nil => exact absurd rfl h
  | cons t ts =>
    have ht : t.symbol.kind ≠ .eof := h
    simp [advance, beforeEnd, firstEnd, endToken, ht]

section

variable {s : Stream} {ts rest : List (Token Symbol)} {e : Token Symbol}
  (hts : ∀ t ∈ ts, t.symbol.kind ≠ .eof)

include hts

theorem beforeEnd_of_ahead (h : s.ahead = ts ++ rest) (hrest : frontKind rest = .eof) :
    s.beforeEnd = ts ∧ s.firstEnd = rest.headD s.endToken := by
  have hnone : ts.find? (·.symbol.kind = .eof) = none := by simpa using hts
  rw [beforeEnd, firstEnd, h, List.takeWhile_append_of_pos (by simpa using hts), List.find?_append, hnone]
  cases rest with
  | nil => simp
  | cons t rest =>
    have ht : t.symbol.kind = .eof := hrest
    simp [ht]

theorem beforeEnd_ofTokens_append (he : e.symbol.kind = .eof) (behind : List (Token Symbol)) :
    (ofTokens (ts ++ e :: behind)).beforeEnd = ts ∧ (ofTokens (ts ++ e :: behind)).firstEnd = e := by
  obtain rfl | ⟨behind, last, rfl⟩ := behind.eq_nil_or_concat'
  · have hend : (⟨⟨.eof, e.symbol.lexeme⟩, e.position⟩ : Token Symbol) = e := by rw [← he]
    rw [ofTokens_concat, if_pos he]
    obtain ⟨hbefore, hfirst⟩ := beforeEnd_of_ahead (s := ⟨[], ts, e.symbol.lexeme, e.position⟩) hts
      (List.append_nil ts).symm rfl
    exact ⟨hbefore, hfirst.trans hend⟩
  · have hahead : ∃ behind', (ofTokens (ts ++ e :: (behind ++ [last]))).ahead = ts ++ e :: behind' := by
      rw [← List.cons_append, ← List.append_assoc, ofTokens_concat]
      split_ifs
      · exact ⟨behind, rfl⟩
      · exact ⟨behind ++ [last], by simp⟩
    obtain ⟨behind', hahead⟩ := hahead
    exact beforeEnd_of_ahead hts hahead he

theorem beforeEnd_ofTokens :
    (ofTokens ts).beforeEnd = ts ∧ (ofTokens ts).firstEnd = (ofTokens ts).endToken := by
  have hahead : (ofTokens ts).ahead = ts ++ [] := by
    obtain rfl | ⟨ts, last, rfl⟩ := ts.eq_nil_or_concat'
    · rfl
    · rw [ofTokens_concat, if_neg (hts last (by simp)), List.append_nil]
  exact beforeEnd_of_ahead hts hahead rfl

end

end Stream

/-! ## The same but for the end -/

/-- Whether two tokens are one that is no end, or two ends at some positions. -/
inductive SameToken (p p' : Nat) : Token Symbol → Token Symbol → Prop
  | same {t : Token Symbol} (ht : t.symbol.kind ≠ .eof) : SameToken p p' t t
  | atEnd {t t' : Token Symbol} (ht : t.symbol.kind = .eof) (ht' : t'.symbol.kind = .eof)
    (hp : t.position = p) (hp' : t'.position = p') : SameToken p p' t t'

/-- Whether two failures are the same, or have one cause and are those of two ends. -/
inductive SameFailure (p p' : Nat) : Failure → Failure → Prop
  | same (f : Failure) : SameFailure p p' f f
  | atEnd (cause : Cause) : SameFailure p p' ⟨cause, p⟩ ⟨cause, p'⟩

/-- Whether two states have the same tokens in front of an end, their ends at some positions, and as many
expressions open. -/
structure SameToEnd (p p' : Nat) (s s' : Climber) : Prop where
  beforeEnd : s.stream.beforeEnd = s'.stream.beforeEnd
  depth : s.depth = s'.depth
  position : s.stream.firstEnd.position = p
  position' : s'.stream.firstEnd.position = p'

/-- Whether two runs come to the same, but for where their ends stand. -/
inductive SameResult (p p' : Nat) {α : Type} :
    Except Failure α × Climber → Except Failure α × Climber → Prop
  | ok {a : α} {s s' : Climber} (hs : SameToEnd p p' s s') : SameResult p p' (.ok a, s) (.ok a, s')
  | error {f f' : Failure} {s s' : Climber} (hf : SameFailure p p' f f') :
    SameResult p p' (.error f, s) (.error f', s')

variable {p p' : Nat}

theorem SameToken.kind {t t' : Token Symbol} (h : SameToken p p' t t') :
    t.symbol.kind = t'.symbol.kind := by
  cases h with
  | same ht => rfl
  | atEnd ht ht' hp hp' => rw [ht, ht']

theorem SameToken.eq {t t' : Token Symbol} (h : SameToken p p' t t') (ht : t.symbol.kind ≠ .eof) :
    t = t' := by
  cases h with
  | same _ => rfl
  | atEnd hend _ _ _ => exact absurd hend ht

theorem SameToken.failure {t t' : Token Symbol} (h : SameToken p p' t t') (cause : Cause) :
    SameFailure p p' ⟨cause, t.position⟩ ⟨cause, t'.position⟩ := by
  cases h with
  | same ht => exact .same _
  | atEnd ht ht' hp hp' => exact hp ▸ hp' ▸ .atEnd cause

theorem SameToken.failure_of_kind {t t' : Token Symbol} (h : SameToken p p' t t')
    (cause : Token Symbol → Cause) :
    SameFailure p p' ⟨if t.isEof then .unexpectedEof else cause t, t.position⟩
      ⟨if t'.isEof then .unexpectedEof else cause t', t'.position⟩ := by
  cases h with
  | same ht => exact .same _
  | atEnd ht ht' hp hp' =>
    rw [if_pos (isEof_iff.mpr ht), if_pos (isEof_iff.mpr ht')]
    exact hp ▸ hp' ▸ .atEnd _

theorem SameToken.unexpected {t t' : Token Symbol} (h : SameToken p p' t t') :
    SameFailure p p' t.unexpected t'.unexpected :=
  h.failure_of_kind fun t => .unexpectedToken t.shown

theorem SameToken.insteadOf {t t' : Token Symbol} (h : SameToken p p' t t') (kind : Kind) :
    SameFailure p p' (t.insteadOf kind) (t'.insteadOf kind) :=
  h.failure_of_kind fun t => .expectedToken (Lexicon.kindName Symbol kind) t.shown

namespace SameToEnd

variable {s s' : Climber} (h : SameToEnd p p' s s')

include h

theorem current : SameToken p p' s.stream.current s'.stream.current := by
  rw [s.stream.current_eq, s'.stream.current_eq, ← h.beforeEnd]
  cases hfront : s.stream.beforeEnd with
  | nil => exact .atEnd s.stream.kind_firstEnd s'.stream.kind_firstEnd h.position h.position'
  | cons t ts =>
    have ht : t ∈ s.stream.beforeEnd := hfront ▸ List.mem_cons_self
    exact .same (by simpa using List.mem_takeWhile_imp ht)

theorem frontKind_eq : frontKind s.stream.ahead = frontKind s'.stream.ahead := by
  rw [← kind_current, ← kind_current, h.current.kind]

theorem current_eq (hfront : frontKind s.stream.ahead ≠ .eof) :
    s.stream.current = s'.stream.current :=
  h.current.eq (by rwa [kind_current])

theorem advanced (hfront : frontKind s.stream.ahead ≠ .eof) :
    SameToEnd p p' s.advanced s'.advanced := by
  obtain ⟨hbefore, hend⟩ := Stream.advance_of_front hfront
  obtain ⟨hbefore', hend'⟩ := Stream.advance_of_front (h.frontKind_eq ▸ hfront)
  refine ⟨?_, h.depth, hend ▸ h.position, hend' ▸ h.position'⟩
  rw [Climber.advanced, Climber.advanced, hbefore, hbefore', h.beforeEnd]

theorem opened : SameToEnd p p' s.opened s'.opened :=
  ⟨h.beforeEnd, congrArg (· + 1) h.depth, h.position, h.position'⟩

theorem closed : SameToEnd p p' s.closed s'.closed :=
  ⟨h.beforeEnd, congrArg (· - 1) h.depth, h.position, h.position'⟩

theorem number (hfront : frontKind s.stream.ahead ≠ .eof) :
    SameResult p p' (Climb.number.runFrom s) (Climb.number.runFrom s') := by
  rw [runFrom_number, runFrom_number, ← h.current_eq hfront]
  split
  · exact .ok (h.advanced hfront)
  · exact .error (.same _)

theorem expect {kind : Kind} (hkind : kind ≠ .eof) :
    SameResult p p' ((Climb.expect kind).runFrom s) ((Climb.expect kind).runFrom s') := by
  rw [runFrom_expect, runFrom_expect, ← h.frontKind_eq]
  split_ifs with hfront
  · rw [← hfront] at hkind
    rw [h.current_eq hkind]
    exact .ok (h.advanced hkind)
  · exact .error (h.current.insteadOf kind)

end SameToEnd

theorem SameResult.goOn {α β : Type} {r r' : Except Failure α × Climber}
    {f f' : α → Climber → Except Failure β × Climber} (h : SameResult p p' r r')
    (hf : ∀ a s s', SameToEnd p p' s s' → SameResult p p' (f a s) (f' a s')) :
    SameResult p p' (goOn r f) (goOn r' f') := by
  cases h with
  | ok hs => exact hf _ _ _ hs
  | error he => exact .error he

theorem sameResult_applied {s s' : Climber} (h : SameToEnd p p' s s') (t : Token Symbol)
    (left right : Double) : SameResult p p' (applied t left right s) (applied t left right s') := by
  unfold applied
  split
  · exact .ok h
  · exact .error (.same _)

/-! ## The same calls -/

/-- Whether a call moves over the token it starts at. -/
def Call.takesToken : Call → Bool
  | .operand _ | .operation _ _ => true
  | .expression _ | .operations _ _ => false

theorem ne_eof_of_eq_some {α : Type} {rule : Kind → Option α} {kind : Kind} {a : α}
    (hnone : rule .eof = none) (h : rule kind = some a) : kind ≠ .eof := by
  rintro rfl
  simp [hnone] at h

section

variable {table : Table} {c : Call} {s s' : Climber} {n : Nat} {r : Except Failure Double × Climber}

theorem Evaluates.exists_sameResult (hopenings : table.opening .eof = none)
    (hbindings : table.binding .eof = none) (h : Evaluates table c s n r)
    (hfront : c.takesToken → frontKind s.stream.ahead ≠ .eof) (hs : SameToEnd p p' s s') :
    ∃ r', Evaluates table c s' n r' ∧ SameResult p p' r r' := by
  -- Only behind the first end are the tokens different, and no call moves over that.
  induction h generalizing s' with
  | tooDeep hdepth => exact ⟨_, .tooDeep (hs.depth ▸ hdepth), .error (hs.current.failure _)⟩
  | unexpected hdepth hopening =>
    exact ⟨_, .unexpected (hs.depth ▸ hdepth) (hs.frontKind_eq ▸ hopening),
      .error hs.current.unexpected⟩
  | @noOperand power n s s₁ o f hdepth hopening hoperand ih =>
    obtain ⟨r', hoperand', hsame⟩ := ih (fun _ => ne_eof_of_eq_some hopenings hopening) hs.opened
    cases hsame with
    | error hf =>
      exact ⟨_, .noOperand (hs.depth ▸ hdepth) (hs.frontKind_eq ▸ hopening) hoperand', .error hf⟩
  | @expression power m n s s₁ o left r hdepth hopening hoperand hoperations hopen ih ih' =>
    obtain ⟨r₁, hoperand', hsame⟩ := ih (fun _ => ne_eof_of_eq_some hopenings hopening) hs.opened
    cases hsame with
    | @ok _ _ s₁' hs₁ =>
      obtain ⟨r', hoperations', hsame'⟩ := ih' (by simp [Call.takesToken]) hs₁
      have hdepth' : s₁'.depth = s'.depth + 1 := hoperand'.keepsDepth.eq_of_ok rfl
      have hopen' : 0 < r'.2.depth := by
        have hle := hoperations'.keepsDepth.le
        omega
      exact ⟨_, .expression (hs.depth ▸ hdepth) (hs.frontKind_eq ▸ hopening) hoperand' hoperations' hopen',
        hsame'.goOn fun _ _ _ h => .ok h.closed⟩
  | number => exact ⟨_, .number, hs.number (hfront rfl)⟩
  | signed h ih =>
    obtain ⟨r', h', hsame⟩ := ih (by simp [Call.takesToken]) (hs.advanced (hfront rfl))
    refine ⟨_, .signed h', hsame.goOn fun x s₁ s₁' h₁ => ?_⟩
    rw [hs.frontKind_eq]
    exact .ok h₁
  | group h ih =>
    obtain ⟨r', h', hsame⟩ := ih (by simp [Call.takesToken]) (hs.advanced (hfront rfl))
    refine ⟨_, .group h', hsame.goOn fun x s₁ s₁' h₁ => ?_⟩
    exact (h₁.expect (by decide)).goOn fun _ _ _ h₂ => .ok h₂
  | operation h ih =>
    obtain ⟨r', h', hsame⟩ := ih (by simp [Call.takesToken]) (hs.advanced (hfront rfl))
    refine ⟨_, .operation h', hsame.goOn fun right s₁ s₁' h₁ => ?_⟩
    rw [hs.current_eq (hfront rfl)]
    exact sameResult_applied h₁ _ _ _
  | stop h => exact ⟨_, .stop (hs.frontKind_eq ▸ h), .ok hs⟩
  | @noOperation power n left s s₁ b f hbinding hpower h ih =>
    obtain ⟨r', h', hsame⟩ := ih (fun _ => ne_eof_of_eq_some hbindings hbinding) hs
    cases hsame with
    | error hf => exact ⟨_, .noOperation (hs.frontKind_eq ▸ hbinding) hpower h', .error hf⟩
  | @operations power m n left x s s₁ b r hbinding hpower hoperation hoperations ih ih' =>
    obtain ⟨r₁, hoperation', hsame⟩ := ih (fun _ => ne_eof_of_eq_some hbindings hbinding) hs
    cases hsame with
    | ok hs₁ =>
      obtain ⟨r', hoperations', hsame'⟩ := ih' (by simp [Call.takesToken]) hs₁
      exact ⟨r', .operations (hs.frontKind_eq ▸ hbinding) hpower hoperation' hoperations', hsame'⟩

end

/-! ## The same values -/

theorem evaluateTokens_of_sameToEnd {ts us : List (Token Symbol)}
    (h : SameToEnd p p' (Climber.ofTokens ts) (Climber.ofTokens us)) :
    evaluateTokens ts = evaluateTokens us ∨
      ∃ cause, evaluateTokens ts = .error ⟨cause, p⟩ ∧ evaluateTokens us = .error ⟨cause, p'⟩ := by
  obtain ⟨n, hn⟩ := ends_expressionWithin .arithmetic nestingLimit 0 (Climber.ofTokens ts) rfl
  obtain ⟨m, hm⟩ := ends_expressionWithin .arithmetic nestingLimit 0 (Climber.ofTokens us) rfl
  obtain ⟨r', hr', hsame⟩ := hn.exists_sameResult rfl rfl (by simp [Call.takesToken]) h
  obtain ⟨-, rfl⟩ := hm.unique hr'
  rw [evaluateTokens_eq, evaluateTokens_eq]
  generalize (expressionWithin .arithmetic nestingLimit 0).runFrom (Climber.ofTokens ts) = r at hsame ⊢
  generalize (expressionWithin .arithmetic nestingLimit 0).runFrom (Climber.ofTokens us) = r' at hsame ⊢
  cases hsame with
  | error hf =>
    cases hf with
    | same => exact .inl rfl
    | atEnd cause => exact .inr ⟨cause, rfl, rfl⟩
  | ok hs =>
    refine .inl ?_
    dsimp only
    rw [← hs.frontKind_eq]
    split_ifs with hfront
    · rfl
    · -- A trailing token is one in front of the first end.
      rw [hs.current_eq hfront]

/-- Tokens behind the first end change nothing. Without an end, tokens come to what they come to with any
end behind them, but a failure at that end is then where the stream puts its own: behind the last token. -/
theorem evaluateTokens_behind_end {ts : List (Token Symbol)} {e : Token Symbol}
    (hts : ∀ t ∈ ts, t.symbol.kind ≠ .eof) (he : e.symbol.kind = .eof) :
    (∀ behind, evaluateTokens (ts ++ e :: behind) = evaluateTokens (ts ++ [e])) ∧
    (evaluateTokens ts = evaluateTokens (ts ++ [e]) ∨
      ∃ cause, evaluateTokens ts = .error ⟨cause, (Stream.ofTokens ts).endToken.position⟩ ∧
        evaluateTokens (ts ++ [e]) = .error ⟨cause, e.position⟩) := by
  obtain ⟨hbefore', hend'⟩ := Stream.beforeEnd_ofTokens_append hts he []
  constructor
  · intro behind
    obtain ⟨hbefore, hend⟩ := Stream.beforeEnd_ofTokens_append hts he behind
    have hsame : SameToEnd e.position e.position (Climber.ofTokens (ts ++ e :: behind))
        (Climber.ofTokens (ts ++ [e])) :=
      ⟨hbefore.trans hbefore'.symm, rfl, congrArg _ hend, congrArg _ hend'⟩
    obtain heq | ⟨cause, hcause, hcause'⟩ := evaluateTokens_of_sameToEnd hsame
    · exact heq
    · exact hcause.trans hcause'.symm
  · obtain ⟨hbefore, hend⟩ := Stream.beforeEnd_ofTokens hts
    exact evaluateTokens_of_sameToEnd
      ⟨hbefore.trans hbefore'.symm, rfl, congrArg _ hend, congrArg _ hend'⟩

/-- What closes a group behind the first end does not close it. -/
theorem evaluateTokens_behind_end_of_group :
    evaluateTokens [⟨⟨.openParen, "("⟩, 0⟩, ⟨⟨.number, "1"⟩, 1⟩, ⟨⟨.eof, "?"⟩, 9⟩,
      ⟨⟨.closeParen, ")"⟩, 2⟩] = .error ⟨.unexpectedEof, 9⟩ ∧
    evaluateTokens [⟨⟨.openParen, "("⟩, 0⟩, ⟨⟨.number, "1"⟩, 1⟩] = .error ⟨.unexpectedEof, 2⟩ := by
  have hts : ∀ t ∈ [(⟨⟨.openParen, "("⟩, 0⟩ : Token Symbol), ⟨⟨.number, "1"⟩, 1⟩],
      t.symbol.kind ≠ .eof := by simp
  obtain ⟨hbehind, hwithout⟩ := evaluateTokens_behind_end (e := ⟨⟨.eof, "?"⟩, 9⟩) hts rfl
  refine ⟨(hbehind [⟨⟨.closeParen, ")"⟩, 2⟩]).trans rfl, ?_⟩
  obtain heq | ⟨cause, hcause, hend⟩ := hwithout
  · exact absurd (heq.trans rfl : _ = .error ⟨.unexpectedEof, 9⟩) (by decide +kernel)
  · have hsame : (.error ⟨cause, 9⟩ : Except Failure Double) = .error ⟨.unexpectedEof, 9⟩ :=
      hend.symm.trans rfl
    obtain rfl : cause = .unexpectedEof := by simpa using hsame
    exact hcause

end Dialects.Expr
