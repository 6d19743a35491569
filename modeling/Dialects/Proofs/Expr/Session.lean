import Dialects.Expr.Climb
import Dialects.Proofs.Expr.Calls

/-!
# Sessions

A table and a stream of tokens may be used in any order: rules are registered, tokens are moved over,
levels are opened and closed, and expressions, operands and operations are read. The stream stays sound
under any such use.
-/

namespace Dialects.Expr

open Climb
open Dialects.Text (byteLength)

/-! ## Streams -/

/-- Tokens with an end behind them, unless the last is one. Its position is one in the text that the
tokens were read from, or right behind it, and so no more than a machine can count. -/
def closedTokens (tokens : List (Token Symbol)) : List (Token Symbol) :=
  match tokens.getLast? with
  | none => [⟨.eof, 0⟩]
  | some last =>
    if last.symbol.kind = .eof then tokens
    else tokens ++ [⟨.eof, last.position + byteLength last.symbol.lexeme.toList⟩]

theorem Stream.tokens_ofTokens (tokens : List (Token Symbol)) :
    (ofTokens tokens).tokens = closedTokens tokens := by
  obtain rfl | ⟨init, last, rfl⟩ := tokens.eq_nil_or_concat'
  · rfl
  · simp only [ofTokens, closedTokens, List.getLast?_concat]
    split_ifs with hkind
    · obtain ⟨⟨kind, lexeme⟩, position⟩ := last
      obtain rfl : kind = .eof := hkind
      simp [tokens, endToken]
    · simp [tokens, endToken, Symbol.eof]

theorem exists_getLast?_closedTokens (tokens : List (Token Symbol)) :
    ∃ last, (closedTokens tokens).getLast? = some last ∧ last.symbol.kind = .eof := by
  unfold closedTokens
  cases hlast : tokens.getLast? with
  | none => exact ⟨_, rfl, rfl⟩
  | some last =>
    simp only
    split_ifs with hkind
    · exact ⟨last, hlast, hkind⟩
    · exact ⟨_, List.getLast?_concat, rfl⟩

/-! ## Streams by index -/

/-- A list of tokens and an index, which nothing keeps inside the list. -/
structure Indexed where
  tokens : List (Token Symbol)
  index : Nat

namespace Indexed

variable {p q : Indexed} {t : Token Symbol}

/-- The token at the index and the place behind it, or the same place at the last token. An index
outside the list has no token. -/
def advance? (p : Indexed) : Option (Token Symbol × Indexed) := do
  let t ← p.tokens[p.index]?
  return (t, if p.index + 1 < p.tokens.length then { p with index := p.index + 1 } else p)

/-- Whether moving on some times leads from one place to another. -/
def Reaches : Indexed → Indexed → Prop :=
  Relation.ReflTransGen fun p q => ∃ t, p.advance? = some (t, q)

/-- Whether one place is in the same tokens as another, not in front of it, and inside the list. -/
structure Follows (p q : Indexed) : Prop where
  tokens_eq : q.tokens = p.tokens
  index_le : p.index ≤ q.index
  index_lt : p.index < p.tokens.length → q.index < q.tokens.length

theorem follows_of_advance? (h : p.advance? = some (t, q)) : p.Follows q := by
  obtain ⟨u, hu, heq⟩ := Option.bind_eq_some_iff.mp h
  obtain ⟨-, rfl⟩ := Prod.mk.inj (Option.some.inj heq)
  split_ifs with hguard
  · exact ⟨rfl, Nat.le_succ _, fun _ => hguard⟩
  · exact ⟨rfl, le_rfl, id⟩

theorem Reaches.follows (h : p.Reaches q) : p.Follows q := by
  induction h with
  | refl => exact ⟨rfl, le_rfl, id⟩
  | tail _ hstep ih =>
    obtain ⟨t, ht⟩ := hstep
    have hnext := follows_of_advance? ht
    exact ⟨hnext.tokens_eq.trans ih.tokens_eq, ih.index_le.trans hnext.index_le,
      fun hp => hnext.index_lt (ih.index_lt hp)⟩

end Indexed

namespace Stream

def indexed (s : Stream) : Indexed := ⟨s.tokens, s.index⟩

theorem indexed_ofTokens (tokens : List (Token Symbol)) :
    (ofTokens tokens).indexed = ⟨closedTokens tokens, 0⟩ := by
  have hindex : (ofTokens tokens).index = 0 := by
    unfold ofTokens
    split
    · rfl
    · split_ifs <;> rfl
  rw [indexed, tokens_ofTokens, hindex]

/-- Moving over a stream is moving by the index, and there is always a token to move over. -/
theorem advance?_indexed (s : Stream) :
    s.indexed.advance? = some (s.current, s.advance.indexed) := by
  rw [Indexed.advance?, indexed, getElem?_tokens_index, Option.bind_eq_bind, Option.bind_some]
  obtain ⟨passed, ahead, _, _⟩ := s
  cases ahead with
  | nil => simp [advance, indexed, tokens, index]
  | cons t ts => simp [advance, indexed, tokens, index, endToken]

end Stream

/-- Whether one state comes from another by moving over tokens, whatever their depths. -/
def Climber.LeadsTo (s s' : Climber) : Prop := s.stream.indexed.Reaches s'.stream.indexed

theorem isKept_leadsTo : IsKept Climber.LeadsTo where
  refl _ := .refl
  trans h h' := Relation.ReflTransGen.trans h h'
  advance s := .single ⟨_, s.stream.advance?_indexed⟩
  depth _ _ := .refl

/-! ## Moves -/

structure Session where
  table : Table
  climber : Climber

/-- What may be done with a session. -/
inductive Move
  | withOpening (kind : Kind) (o : Opening)
  | withBinding (kind : Kind) (b : Binding)
  | advance
  | expect (kind : Kind)
  | enter
  | leave
  | expression (power : Nat)
  | operand (o : Opening)
  | operation (left : Double) (power : Nat)

/-- What a reading makes of a session, without the value that is read. -/
def Session.perform {α : Type} (s : Session) (m : Climb α) : Except Failure Unit × Session :=
  ((m.runFrom s.climber).1.map fun _ => (), { s with climber := (m.runFrom s.climber).2 })

namespace Move

def apply (s : Session) : Move → Except Failure Unit × Session
  | withOpening kind o => (.ok (), { s with table := s.table.withOpening kind o })
  | withBinding kind b => (.ok (), { s with table := s.table.withBinding kind b })
  | advance => s.perform Climb.advance
  | expect kind => s.perform (Climb.expect kind)
  | enter => s.perform Climb.enter
  | leave => s.perform Climb.leave
  | expression power => s.perform (Climb.expression s.table power)
  | operand o => s.perform (operandOf (Climb.expression s.table) o)
  | operation left power => s.perform (Climb.operation (Climb.expression s.table) left power)

/-- The call that a move is, if it is one. -/
def call? : Move → Option Call
  | expression power => some (.expression power)
  | operand o => some (.operand o)
  | operation left power => some (.operation left power)
  | _ => none

/-- Whether a move may only be made or refused as a whole. -/
def isChecked : Move → Bool
  | expect _ | enter => true
  | _ => false

end Move

/-- Whether a move closes a level only if one is open. -/
def Move.IsAllowed (s : Session) (m : Move) : Prop := m = .leave → 0 < s.climber.depth

/-- Whether a session is got to from tokens, with no rule registered, by moves that are allowed. -/
inductive Session.Reached (tokens : List (Token Symbol)) : Session → Prop
  | start : Reached tokens ⟨.empty, .ofTokens tokens⟩
  | step {s : Session} {m : Move} (h : Reached tokens s) (hm : m.IsAllowed s) :
    Reached tokens (m.apply s).2

/-! ## What holds of a session -/

/-- Whether the tokens are those of the start with an end behind them, the place is among them and one
that the index of the first token gets to, and no more levels are open than may be. -/
structure Session.Sound (tokens : List (Token Symbol)) (s : Session) : Prop where
  reaches : Indexed.Reaches ⟨closedTokens tokens, 0⟩ s.climber.stream.indexed
  tokens_eq : s.climber.stream.tokens = closedTokens tokens
  getLast?_eq : ∃ last, s.climber.stream.tokens.getLast? = some last ∧ last.symbol.kind = .eof
  index_lt : s.climber.stream.index < s.climber.stream.tokens.length
  depth_le : s.climber.depth ≤ nestingLimit

/-- Whether a move goes forward in the same tokens. One that is refused as a whole changes nothing, and
leaving closes a level that is open. A call ends, with as many levels open as before if it succeeds, and
no fewer if it fails. -/
structure Move.Respects (s : Session) (m : Move) : Prop where
  reaches : s.climber.stream.indexed.Reaches (m.apply s).2.climber.stream.indexed
  tokens_eq : (m.apply s).2.climber.stream.tokens = s.climber.stream.tokens
  index_le : s.climber.stream.index ≤ (m.apply s).2.climber.stream.index
  depth_le : (m.apply s).2.climber.depth ≤ nestingLimit
  refused {f : Failure} : m.isChecked → (m.apply s).1 = .error f → (m.apply s).2 = s
  closes : m = .leave → (m.apply s).2.climber.depth + 1 = s.climber.depth
  ends {c : Call} : m.call? = some c → ∃ n r, Evaluates s.table c s.climber n r ∧
    m.apply s = (r.1.map fun _ => (), ⟨s.table, r.2⟩)
  depth_of_ok : m.call?.isSome → (m.apply s).1 = .ok () →
    (m.apply s).2.climber.depth = s.climber.depth
  depth_of_error {f : Failure} : m.call?.isSome → (m.apply s).1 = .error f →
    s.climber.depth ≤ (m.apply s).2.climber.depth

section

variable {s : Session} {m : Move} {c : Call} {f : Failure}

theorem leadsTo_apply (s : Session) (m : Move) : s.climber.LeadsTo (m.apply s).2.climber := by
  have hexpression (power : Nat) : Keeps Climber.LeadsTo (Climb.expression s.table power) :=
    fun climber => keeps_expressionWithin isKept_leadsTo s.table _ power climber
  cases m with
  | withOpening kind o => exact .refl
  | withBinding kind b => exact .refl
  | advance => exact keeps_advance isKept_leadsTo s.climber
  | expect kind => exact keeps_expect isKept_leadsTo kind s.climber
  | enter => exact keeps_enter isKept_leadsTo s.climber
  | leave => exact keeps_leave isKept_leadsTo s.climber
  | expression power => exact hexpression power s.climber
  | operand o =>
    cases o with
    | number => exact keeps_number isKept_leadsTo s.climber
    | sign => exact keeps_signed isKept_leadsTo hexpression s.climber
    | group => exact keeps_group isKept_leadsTo hexpression s.climber
  | operation left power => exact keeps_operation isKept_leadsTo hexpression left power s.climber

theorem exists_evaluates_apply (hc : m.call? = some c) : ∃ n r, Evaluates s.table c s.climber n r ∧
    m.apply s = (r.1.map fun _ => (), ⟨s.table, r.2⟩) := by
  have hends := ends_expression s.table (nestingLimit - s.climber.depth)
  cases m with
  | expression power =>
    obtain rfl := Option.some.inj hc
    obtain ⟨n, h⟩ := hends power s.climber rfl
    exact ⟨n, _, h, rfl⟩
  | operand o =>
    obtain rfl := Option.some.inj hc
    obtain ⟨n, h⟩ := exists_evaluates_operand hends rfl o
    exact ⟨n, _, h, rfl⟩
  | operation left power =>
    obtain rfl := Option.some.inj hc
    obtain ⟨n, h⟩ := exists_evaluates_operation hends rfl left power
    exact ⟨n, _, h, rfl⟩
  | _ => simp [Move.call?] at hc

theorem depth_apply_le (hs : s.climber.depth ≤ nestingLimit) (m : Move) :
    (m.apply s).2.climber.depth ≤ nestingLimit := by
  cases hc : m.call? with
  | some c =>
    obtain ⟨n, r, h, happly⟩ := exists_evaluates_apply (s := s) hc
    rw [happly]
    exact h.keepsDepth.le_limit hs
  | none =>
    cases m with
    | withOpening kind o => exact hs
    | withBinding kind b => exact hs
    | advance => exact hs
    | expect kind => exact (depth_expect kind s.climber).trans_le hs
    | enter =>
      show (Climb.enter.runFrom s.climber).2.depth ≤ nestingLimit
      rw [runFrom_enter]
      split_ifs with hdepth
      · exact hs
      · exact Nat.lt_of_not_le hdepth
    | leave => exact (Nat.sub_le _ _).trans hs
    | _ => simp [Move.call?] at hc

theorem apply_eq_self (hm : m.isChecked) (h : (m.apply s).1 = .error f) : (m.apply s).2 = s := by
  cases m with
  | expect kind =>
    have hrun := runFrom_expect kind s.climber
    simp only [Move.apply, Session.perform, hrun] at h ⊢
    split_ifs at h ⊢
    · simp [Except.map] at h
    · rfl
  | enter =>
    simp only [Move.apply, Session.perform, runFrom_enter] at h ⊢
    split_ifs at h ⊢
    · rfl
    · simp [Except.map] at h
  | _ => simp [Move.isChecked] at hm

theorem respects (hs : s.climber.depth ≤ nestingLimit) (hm : m.IsAllowed s) : m.Respects s where
  reaches := leadsTo_apply s m
  tokens_eq := (leadsTo_apply s m).follows.tokens_eq
  index_le := (leadsTo_apply s m).follows.index_le
  depth_le := depth_apply_le hs m
  refused := apply_eq_self
  closes := by
    rintro rfl
    exact Nat.sub_add_cancel (hm rfl)
  ends := exists_evaluates_apply
  depth_of_ok hc hok := by
    obtain ⟨c, hc⟩ := Option.isSome_iff_exists.mp hc
    obtain ⟨n, ⟨e | x, s'⟩, h, happly⟩ := exists_evaluates_apply (s := s) hc
    · simp [happly, Except.map] at hok
    · rw [happly]
      exact h.keepsDepth.eq_of_ok rfl
  depth_of_error hc herror := by
    obtain ⟨c, hc⟩ := Option.isSome_iff_exists.mp hc
    obtain ⟨n, r, h, happly⟩ := exists_evaluates_apply (s := s) hc
    rw [happly]
    exact h.keepsDepth.le

end

section

variable {tokens : List (Token Symbol)} {s : Session} {m : Move}

theorem Session.Reached.reaches (h : Session.Reached tokens s) :
    Indexed.Reaches ⟨closedTokens tokens, 0⟩ s.climber.stream.indexed := by
  induction h with
  | start =>
    rw [← Stream.indexed_ofTokens]
    exact .refl
  | step h hm ih => exact ih.trans (leadsTo_apply _ _)

theorem Session.Reached.depth_le (h : Session.Reached tokens s) : s.climber.depth ≤ nestingLimit := by
  induction h with
  | start => exact Nat.zero_le _
  | step h hm ih => exact depth_apply_le ih _

theorem sound_of_reached (h : Session.Reached tokens s) : s.Sound tokens := by
  have hreaches := h.reaches
  obtain ⟨last, hlast, hkind⟩ := exists_getLast?_closedTokens tokens
  have htokens : s.climber.stream.tokens = closedTokens tokens := hreaches.follows.tokens_eq
  have hpos : 0 < (closedTokens tokens).length := by
    refine List.length_pos_iff.mpr fun hnil => ?_
    simp [hnil] at hlast
  exact ⟨hreaches, htokens, ⟨last, htokens ▸ hlast, hkind⟩, hreaches.follows.index_lt hpos, h.depth_le⟩

/-- Whatever is done with a table and tokens, they stay sound, and so does whatever is done next. -/
theorem respects_of_reached (h : Session.Reached tokens s) (hm : m.IsAllowed s) :
    s.Sound tokens ∧ m.Respects s :=
  ⟨sound_of_reached h, respects h.depth_le hm⟩

end

/-- An end between the tokens is taken for a sign, and a level is open. -/
theorem respects_of_end_as_sign :
    (Move.expression 0).Respects (Move.enter.apply ((Move.withOpening .eof .sign).apply
      ⟨.empty, .ofTokens [⟨.eof, 0⟩, ⟨⟨.number, "1"⟩, 1⟩]⟩).2).2 :=
  (respects_of_reached (.step (.step .start (by simp [Move.IsAllowed])) (by simp [Move.IsAllowed]))
    (by simp [Move.IsAllowed])).2

end Dialects.Expr
