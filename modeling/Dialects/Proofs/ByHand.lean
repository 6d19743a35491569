import Dialects.Lookahead
import Dialects.Proofs.Boundaries
import Dialects.Proofs.Markup.Orthography
import Dialects.Proofs.Tiling

/-!
# Many readings by hand

A text may be read by hand: token after token, some only if they are of a given kind. Whatever fails
on the way, no token is left out and none comes twice.
-/

namespace Dialects

open Dialects.Text (Cursor byteLength)

/-! ## Demands -/

/-- What may be asked for with a token in hand. -/
inductive Demand (κ : Type)
  | advance
  | expect (kind : κ)

variable {σ κ : Type} [Lexicon σ κ] [DecidableEq κ] {l : Lookahead σ} {d : Demand κ}

namespace Demand

def perform (l : Lookahead σ) : Demand κ → Except Failure (Token σ) × Lookahead σ
  | advance => l.advance
  | expect kind => l.expect kind

/-- Whether a demand reads on, which one for a token of another kind does not. -/
def Reads (l : Lookahead σ) : Demand κ → Prop
  | advance => True
  | expect kind => l.current.kind = kind

instance (l : Lookahead σ) : DecidablePred (Reads (κ := κ) l)
  | advance => .isTrue trivial
  | expect kind => inferInstanceAs (Decidable (l.current.kind = kind))

theorem perform_of_reads (h : d.Reads l) : d.perform l = l.advance := by
  cases d with
  | advance => rfl
  | expect kind => exact if_pos h

theorem perform_of_not_reads (h : ¬ d.Reads l) : ∃ f, d.perform l = (.error f, l) := by
  cases d with
  | advance => exact absurd trivial h
  | expect kind => exact ⟨_, if_neg h⟩

end Demand

/-! ## One after the other -/

/-- The tokens among results. -/
def tokensIn (results : List (Except Failure (Token σ))) : List (Token σ) :=
  results.filterMap Except.toOption

omit [Lexicon σ κ] in
theorem tokensIn_cons (result : Except Failure (Token σ))
    (results : List (Except Failure (Token σ))) :
    tokensIn (result :: results) = result.toOption.toList ++ tokensIn results := by
  cases result <;> rfl

omit [Lexicon σ κ] in
theorem tokensIn_map_ok (tokens : List (Token σ)) : tokensIn (tokens.map .ok) = tokens := by
  induction tokens with
  | nil => rfl
  | cons t tokens ih =>
    rw [List.map_cons, tokensIn_cons, ih]
    rfl

namespace Lookahead

/-- The results of demands one after the other, and where they lead. A failed demand does not stop
the next one. -/
def performAll (l : Lookahead σ) :
    List (Demand κ) → List (Except Failure (Token σ)) × Lookahead σ
  | [] => ([], l)
  | d :: ds =>
    let (result, l') := d.perform l
    let (results, last) := performAll l' ds
    (result :: results, last)

/-- The tokens that demands give. -/
def given (l : Lookahead σ) (ds : List (Demand κ)) : List (Token σ) :=
  tokensIn (l.performAll ds).1

def after (l : Lookahead σ) (ds : List (Demand κ)) : Lookahead σ := (l.performAll ds).2

/-- How many of the demands read on. -/
def readings (l : Lookahead σ) : List (Demand κ) → Nat
  | [] => 0
  | d :: ds => readings (d.perform l).2 ds + if d.Reads l then 1 else 0

theorem given_cons (l : Lookahead σ) (d : Demand κ) (ds : List (Demand κ)) :
    l.given (d :: ds) = (d.perform l).1.toOption.toList ++ (d.perform l).2.given ds :=
  tokensIn_cons _ _

theorem after_cons (l : Lookahead σ) (d : Demand κ) (ds : List (Demand κ)) :
    l.after (d :: ds) = (d.perform l).2.after ds := rfl

omit [DecidableEq κ] in
theorem advance_given (l : Lookahead σ) :
    l.advance.1.toOption.toList ++ [l.advance.2.current] =
      l.current :: (Lexicon.next (σ := σ) l.cursor).1.toOption.toList := by
  rw [advance]
  split
  all_goals rename_i hnext
  all_goals
    rw [hnext]
    rfl

omit [DecidableEq κ] in
theorem cursor_advance (l : Lookahead σ) :
    l.advance.2.cursor = (Lexicon.next (σ := σ) l.cursor).2 := by
  rw [advance]
  split
  all_goals rename_i hnext
  all_goals rw [hnext]

theorem given_concat (l : Lookahead σ) (ds : List (Demand κ)) :
    l.given ds ++ [(l.after ds).current] =
      l.current :: tokensIn (nextTokens (l.readings ds) l.cursor) := by
  induction ds generalizing l with
  | nil => rfl
  | cons d ds ih =>
    rw [given_cons, after_cons, readings, List.append_assoc, ih]
    by_cases h : d.Reads l
    -- One token is handed over where one is taken in hand, and none where the reading fails.
    · rw [if_pos h, Demand.perform_of_reads h, nextTokens, tokensIn_cons, cursor_advance,
        ← List.singleton_append, ← List.append_assoc, advance_given, List.cons_append]
    · obtain ⟨f, hf⟩ := Demand.perform_of_not_reads h
      rw [if_neg h, hf]
      rfl

theorem cursor_after (l : Lookahead σ) (ds : List (Demand κ)) :
    (l.after ds).cursor = cursorAfter σ (l.readings ds) l.cursor := by
  induction ds generalizing l with
  | nil => rfl
  | cons d ds ih =>
    rw [after_cons, ih, readings]
    by_cases h : d.Reads l
    · rw [if_pos h, Demand.perform_of_reads h, cursor_advance, cursorAfter_next]
    · obtain ⟨f, hf⟩ := Demand.perform_of_not_reads h
      rw [if_neg h, hf]
      rfl

end Lookahead

/-! ## Readings by hand of a text -/

namespace Lookahead

variable {source : String} {first : Lookahead σ} (hfirst : ofSource source = .ok first)
include hfirst

omit [DecidableEq κ] in
theorem next_start : Lexicon.next (Cursor.start source) = (.ok first.current, first.cursor) := by
  unfold ofSource at hfirst
  split at hfirst
  · simp at hfirst
  · rename_i hnext
    obtain rfl := Except.ok.inj hfirst
    exact hnext

theorem given_concat_of_source (ds : List (Demand κ)) :
    first.given ds ++ [(first.after ds).current] =
      tokensIn (nextTokens (first.readings ds + 1) (Cursor.start source)) := by
  rw [given_concat, nextTokens, next_start hfirst, tokensIn_cons]
  rfl

theorem cursor_after_of_source (ds : List (Demand κ)) : (first.after ds).cursor =
    cursorAfter σ (first.readings ds + 1) (Cursor.start source) := by
  rw [cursor_after, ← cursorAfter_next, next_start hfirst]

theorem current_of_tokenize [LocatedLexicon σ] [Orthography σ] [LawfulOrthography σ]
    {tokens : List (Token σ)} (h : tokenize source = .ok tokens) (ds : List (Demand κ)) :
    (first.after ds).current =
      tokens.getD (first.given ds).length ⟨Lexicon.eof, byteLength source.toList⟩ := by
  set n := first.readings ds + 1
  set eof : Token σ := ⟨Lexicon.eof, byteLength source.toList⟩
  have hread : nextTokens n (Cursor.start source) =
      ((tokens ++ List.replicate n eof).take n).map .ok := by
    rw [← take_nextTokens (Nat.le_add_left n tokens.length), nextTokens_of_tokenize h,
      List.map_take, List.map_append, List.map_replicate]
  -- No reading fails, so that as many tokens are given as are asked for, and one is in hand.
  have hgiven := given_concat_of_source hfirst ds
  rw [hread, tokensIn_map_ok] at hgiven
  have hlength : (first.given ds).length + 1 = n := by
    simpa using congrArg List.length hgiven
  have hcurrent : (first.given ds ++ [(first.after ds).current])[(first.given ds).length]? =
      some (first.after ds).current := by simp
  rw [hgiven, List.getElem?_take_of_lt (by omega)] at hcurrent
  rw [List.getD_eq_getElem?_getD]
  obtain hinside | hbehind := lt_or_ge (first.given ds).length tokens.length
  · rw [List.getElem?_append_left hinside] at hcurrent
    rw [hcurrent]
    rfl
  · rw [List.getElem?_append_right hbehind, List.getElem?_replicate, if_pos (by omega)] at hcurrent
    rw [List.getElem?_eq_none hbehind]
    exact (Option.some.inj hcurrent).symm

end Lookahead

/-- Whether readings by hand go along with reading token after token, and a failed one keeps the
token in hand. -/
structure KeepsPace (source : String) (first : Lookahead σ) (ds : List (Demand κ)) : Prop where
  given_eq : first.given ds ++ [(first.after ds).current] =
    tokensIn (nextTokens (first.readings ds + 1) (Cursor.start source))
  cursor_eq : (first.after ds).cursor = cursorAfter σ (first.readings ds + 1) (Cursor.start source)
  expect_of_ne {kind : κ} : (first.after ds).current.kind ≠ kind →
    (first.after ds).expect kind =
      (.error ((first.after ds).current.insteadOf kind), first.after ds)
  of_error {d : Demand κ} {f : Failure} : d.Reads (first.after ds) →
    (d.perform (first.after ds)).1 = .error f →
    (Lexicon.next (σ := σ) (first.after ds).cursor).1 = .error f ∧
      (d.perform (first.after ds)).2.current = (first.after ds).current
  current_eq {tokens : List (Token σ)} : tokenize source = .ok tokens → (first.after ds).current =
    tokens.getD (first.given ds).length ⟨Lexicon.eof, byteLength source.toList⟩

theorem Demand.of_error {f : Failure} (hd : d.Reads l) (hf : (d.perform l).1 = .error f) :
    (Lexicon.next (σ := σ) l.cursor).1 = .error f ∧ (d.perform l).2.current = l.current := by
  rw [perform_of_reads hd, Lookahead.advance] at hf ⊢
  cases hnext : Lexicon.next (σ := σ) l.cursor with
  | mk result c =>
    cases result with
    | error g =>
      simp only [hnext] at hf ⊢
      exact ⟨hf, trivial⟩
    | ok t => simp [hnext] at hf

theorem keepsPace [LocatedLexicon σ] [Orthography σ] [LawfulOrthography σ] {source : String}
    {first : Lookahead σ} (hfirst : Lookahead.ofSource source = .ok first)
    (ds : List (Demand κ)) : KeepsPace source first ds where
  given_eq := Lookahead.given_concat_of_source hfirst ds
  cursor_eq := Lookahead.cursor_after_of_source hfirst ds
  expect_of_ne hkind := if_neg hkind
  of_error := Demand.of_error
  current_eq h := Lookahead.current_of_tokenize hfirst h ds

/-- However a JSON or markup text is read by hand, no token is left out and none comes twice. -/
theorem keepsPace_of_dialects (source : String) :
    (∀ first : Lookahead Json.Symbol, Lookahead.ofSource source = .ok first →
      ∀ ds : List (Demand Json.Kind), KeepsPace source first ds) ∧
    ∀ first : Lookahead Markup.Symbol, Lookahead.ofSource source = .ok first →
      ∀ ds : List (Demand Markup.Kind), KeepsPace source first ds :=
  ⟨fun _ => keepsPace, fun _ => keepsPace⟩

/-- A demand for another kind does not read on, an escape of too few digits fails, and the token
behind it is taken in hand in place of the bracket. -/
theorem keepsPace_of_broken_escape : ∃ first : Lookahead Json.Symbol,
    Lookahead.ofSource "[\"\\u12\",1" = .ok first ∧
      KeepsPace "[\"\\u12\",1" first [.expect Json.Kind.comma, .advance, .advance] ∧
      first.given [.expect Json.Kind.comma, .advance, .advance] = [⟨.leftBracket, 0⟩] ∧
      (first.after [.expect Json.Kind.comma, .advance, .advance]).current = ⟨.number "12", 4⟩ :=
  ⟨⟨⟨.leftBracket, 0⟩, 1, "\"\\u12\",1".toList⟩, rfl,
    (keepsPace_of_dialects "[\"\\u12\",1").1 _ rfl _, rfl, rfl⟩

end Dialects
