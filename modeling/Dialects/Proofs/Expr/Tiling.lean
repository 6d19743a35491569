import Dialects.Proofs.Expr.Located
import Dialects.Proofs.Expr.Orthography
import Dialects.Proofs.Tiling

/-!
# Tiled expressions

A text of blanks, digits, points and marks can always be scanned, and its tokens cover what is no
blank. The first other character is what the scan of a text fails at.
-/

namespace Dialects.Expr

open Dialects.Text

/-! ## Foreign characters -/

/-- The characters that are symbols by themselves. -/
def marks : List (Char × Kind) :=
  [('(', .openParen), (')', .closeParen), ('+', .plus), ('-', .dash), ('*', .star), ('/', .slash),
    ('^', .caret)]

/-- Whether a character stands in no expression. -/
def IsForeign (c : Char) : Prop :=
  ¬(isBlank c ∨ c.isDigit ∨ c = '.' ∨ c ∈ marks.map Prod.fst)

theorem kindOfChar?_eq_some_iff {c : Char} {kind : Kind} :
    Symbol.kindOfChar? c = some kind ↔ (c, kind) ∈ marks := by
  unfold marks
  constructor
  · intro h
    simp only [Symbol.kindOfChar?, beq_iff_eq] at h
    split_ifs at h
    all_goals
      obtain rfl := Option.some.inj h
      subst c
      simp
  · intro h
    simp only [List.mem_cons, Prod.mk.injEq, List.not_mem_nil, or_false] at h
    rcases h with ⟨rfl, rfl⟩ | ⟨rfl, rfl⟩ | ⟨rfl, rfl⟩ | ⟨rfl, rfl⟩ | ⟨rfl, rfl⟩ | ⟨rfl, rfl⟩ |
      ⟨rfl, rfl⟩ <;> rfl

theorem not_isForeign_of_mem_number {cs : List Char} (h : number cs = cs) :
    ∀ c ∈ cs, ¬IsForeign c := by
  intro c hc hforeign
  obtain hdigit | hpoint := forall_mem_number h c hc
  · exact hforeign (.inr (.inl hdigit))
  · exact hforeign (.inr (.inr (.inl hpoint)))

theorem number_cons_ne_nil {d : Char} (h : d.isDigit ∨ d = '.') (cs : List Char) :
    number (d :: cs) ≠ [] := by
  obtain h | rfl := h
  · simp [number, h]
  · simp [number, fraction, Char.isDigit]

/-! ## Numbers -/

/-- Whether some characters are digits, or digits with a point among, in front of or behind them, or a
point alone. -/
inductive IsNumberText : List Char → Prop
  | whole {digits : List Char} (h : IsDigits digits) : IsNumberText digits
  | point {whole part : List Char} (hwhole : ∀ c ∈ whole, c.isDigit) (hpart : ∀ c ∈ part, c.isDigit) :
    IsNumberText (whole ++ '.' :: part)

theorem isNumberText_iff {cs : List Char} : IsNumberText cs ↔ IsNumber cs := by
  constructor
  · intro h
    cases h with
    | whole h =>
      have happend := takeWhile_append_of_stops h.2 (stops_nil (p := Char.isDigit))
      have hdrop := dropWhile_append_of_stops h.2 (stops_nil (p := Char.isDigit))
      rw [List.append_nil] at happend hdrop
      exact ⟨h.1, by rw [number, happend, hdrop, fraction_of_stops stops_nil, List.append_nil]⟩
    | @point whole part hwhole hpart =>
      have hstop : Stops Char.isDigit ('.' :: part) := by simp [Char.isDigit]
      refine ⟨by simp, ?_⟩
      rw [number, takeWhile_append_of_stops hwhole hstop, dropWhile_append_of_stops hwhole hstop,
        fraction, List.takeWhile_eq_self_iff.mpr hpart]
  · rintro ⟨hne, hnumber⟩
    obtain ⟨whole, part, heq, hwhole, hpart⟩ := exists_of_number cs
    rw [hnumber] at heq
    obtain rfl | ⟨digits, hdigits, rfl⟩ := hpart
    · rw [List.append_nil] at heq
      subst heq
      exact .whole ⟨hne, hwhole⟩
    · rw [heq]
      exact .point hwhole hdigits

theorem isLongest_number {cs rest : List Char} (h : IsNumber cs) (hrest : NumberEnds cs rest) :
    IsLongest IsNumberText cs rest := by
  refine isLongest_of_forall (isNumberText_iff.mpr h) fun more hmore hprefix => ?_
  have hends : NumberEnds cs more :=
    ⟨hrest.1.prefix_mono hprefix, hrest.2.imp_right fun hstops => hstops.prefix_mono hprefix⟩
  have hshort := number_append h.2 hends
  have hlong := (isNumberText_iff.mp hmore).2
  rw [hshort] at hlong
  simpa using hlong

theorem IsNumberText.count_point_le {cs : List Char} (h : IsNumberText cs) : cs.count '.' ≤ 1 := by
  have hnone {digits : List Char} (h : ∀ c ∈ digits, c.isDigit) : digits.count '.' = 0 :=
    List.count_eq_zero.mpr (not_mem_of_isDigit h)
  cases h with
  | whole h => simp [hnone h.2]
  | point hwhole hpart => simp [hnone hwhole, hnone hpart]

/-! ## Covered characters -/

/-- Whether a symbol covers some characters in front of the rest of a text: its lexeme, which is a mark,
or the longest number that starts there. -/
structure Symbol.Covers (s : Symbol) (cs rest : List Char) : Prop where
  lexeme : cs = s.lexeme.toList
  kind : s.kind = .number ∧ IsLongest IsNumberText cs rest ∧ cs.count '.' ≤ 1 ∨
    ∃ d, cs = [d] ∧ (d, s.kind) ∈ marks

theorem Symbol.Covers.ne_eof {s : Symbol} {cs rest : List Char} (h : s.Covers cs rest) :
    s.kind ≠ .eof := by
  intro hs
  obtain ⟨hnumber, -⟩ | ⟨d, -, hd⟩ := h.kind
  · simp [hs] at hnumber
  · simp [hs, marks] at hd

theorem Symbol.Covers.not_isForeign {s : Symbol} {cs rest : List Char} (h : s.Covers cs rest) :
    ∀ c ∈ cs, ¬IsForeign c := by
  obtain ⟨-, hlongest, -⟩ | ⟨d, rfl, hd⟩ := h.kind
  · exact not_isForeign_of_mem_number (isNumberText_iff.mp hlongest.1).2
  · intro c hc hforeign
    obtain rfl := List.mem_singleton.mp hc
    exact hforeign (.inr (.inr (.inr (List.mem_map_of_mem (f := Prod.fst) hd))))

theorem covers_of_spells {s : Symbol} {cs rest : List Char} (h : Orthography.Spells cs s)
    (hends : Orthography.EndsBefore s rest) : s.Covers cs rest := by
  obtain ⟨d, kind, hkind, rfl, rfl⟩ | ⟨hnumber, rfl⟩ := h
  · exact ⟨by simp, .inr ⟨d, rfl, kindOfChar?_eq_some_iff.mp hkind⟩⟩
  · have hlongest := isLongest_number hnumber (by simpa using hends rfl)
    exact ⟨by simp, .inl ⟨rfl, hlongest, hlongest.1.count_point_le⟩⟩

/-! ## Texts that cannot be scanned -/

theorem exists_foreign_of_next {c c' : Cursor} {f : Failure} (h : next c = (.error f, c')) :
    ∃ d rest, c.skipBlanks.rest = d :: rest ∧ IsForeign d ∧
      f = ⟨.unrecognisedCharacter d, c.skipBlanks.offset⟩ := by
  have hstops := c.stops_skipBlanks
  simp only [next] at h
  split at h
  · simp at h
  · rename_i d rest hrest
    rw [hrest] at h hstops
    split at h
    · simp at h
    · rename_i hkind
      split_ifs at h with hempty
      · obtain ⟨rfl, -⟩ := by simpa using h
        refine ⟨d, rest, hrest, ?_, rfl⟩
        rintro (hblank | hdigit | hpoint | hmark)
        · simp [stops_cons.mp hstops] at hblank
        · exact number_cons_ne_nil (.inl hdigit) rest (by simpa using hempty)
        · exact number_cons_ne_nil (.inr hpoint) rest (by simpa using hempty)
        · obtain ⟨⟨e, kind⟩, hmem, rfl⟩ := List.mem_map.mp hmark
          simp [kindOfChar?_eq_some_iff.mpr hmem] at hkind
      · simp at h

theorem exists_append_of_next {c c' : Cursor} {t : Token Symbol} (h : next c = (.ok t, c'))
    (ht : t.isEof = false) : ∃ before rest, c.rest = before ++ rest ∧
      c' = ⟨c.offset + byteLength before, rest⟩ ∧ ∀ d ∈ before, ¬IsForeign d := by
  -- A token is a mark or a number, and has no foreign character.
  have hcovered : ∃ cs rest, c.skipBlanks.rest = cs ++ rest ∧
      c' = c.skipBlanks.advance cs.length ∧ ∀ d ∈ cs, ¬IsForeign d := by
    obtain ⟨-, ⟨hs, -⟩ | ⟨d, rest, kind, hrest, hkind, -, rfl⟩ | ⟨-, -, rfl⟩⟩ := next_eq_ok h
    · simp [isEof_iff.mpr (congrArg Symbol.kind hs)] at ht
    · refine ⟨[d], rest, hrest, rfl, fun e he hforeign => ?_⟩
      obtain rfl := List.mem_singleton.mp he
      have hmark := List.mem_map_of_mem (f := Prod.fst) (kindOfChar?_eq_some_iff.mp hkind)
      exact hforeign (.inr (.inr (.inr hmark)))
    · obtain ⟨rest, hrest, -⟩ := exists_rest_of_number c.skipBlanks.rest
      exact ⟨_, rest, hrest, rfl, not_isForeign_of_mem_number (number_number _)⟩
  obtain ⟨cs, rest, hrest, rfl, hcs⟩ := hcovered
  rw [Cursor.rest_skipBlanks] at hrest
  refine ⟨c.rest.takeWhile isBlank ++ cs, rest, ?_, ?_, ?_⟩
  · rw [List.append_assoc, ← hrest, List.takeWhile_append_dropWhile]
  · rw [Cursor.skipBlanks_eq, hrest, Cursor.advance_append, byteLength_append, Nat.add_assoc]
  · intro d hd
    obtain hd | hd := List.mem_append.mp hd
    · exact fun hforeign => hforeign (.inl (List.mem_takeWhile_imp hd))
    · exact hcs d hd

theorem exists_foreign_of_failed {c : Cursor} {f : Failure}
    (h : (Scan.ofCursor c : Scan Symbol).ending = .failed f) :
    ∃ before d after, c.rest = before ++ d :: after ∧ (∀ x ∈ before, ¬IsForeign x) ∧ IsForeign d ∧
      f = ⟨.unrecognisedCharacter d, c.offset + byteLength before⟩ := by
  induction hn : c.rest.length using Nat.strong_induction_on generalizing c with
  | _ n ih =>
    rw [Scan.ofCursor_eq] at h
    cases hnext : Lexicon.next (σ := Symbol) c with
    | mk result c' =>
      rw [hnext] at h
      cases result with
      | error g =>
        obtain rfl : g = f := by simpa using h
        obtain ⟨d, rest, hrest, hd, rfl⟩ := exists_foreign_of_next hnext
        refine ⟨c.rest.takeWhile isBlank, d, rest, ?_, fun x hx => ?_, hd, ?_⟩
        · rw [← hrest, Cursor.rest_skipBlanks, List.takeWhile_append_dropWhile]
        · exact fun hforeign => hforeign (.inl (List.mem_takeWhile_imp hx))
        · rw [Cursor.skipBlanks_eq]
      | ok t =>
        cases heof : t.isEof with
        | true => simp [heof] at h
        | false =>
          -- Nothing up to the end of the token is foreign, and the scan goes on behind it.
          have hlt := LawfulLexicon.length_lt hnext heof
          obtain ⟨before, rest, hrest, rfl, hbefore⟩ := exists_append_of_next hnext heof
          obtain ⟨more, d, after, rfl, hmore, hd, rfl⟩ :=
            ih _ (hn ▸ hlt) (by simpa [heof, Scan.cons] using h) rfl
          refine ⟨before ++ more, d, after, by simp [hrest], fun x hx => ?_, hd, ?_⟩
          · exact (List.mem_append.mp hx).elim (hbefore x) (hmore x)
          · rw [byteLength_append, Nat.add_assoc]

theorem not_isForeign_of_tiles {offset : Nat} {cs : List Char} {ts : List (Token Symbol)}
    (h : Tiles Symbol.Covers offset cs ts) : ∀ c ∈ cs, ¬IsForeign c := by
  have hblank {blanks : List Char} (hblanks : ∀ b ∈ blanks, isBlank b) :
      ∀ b ∈ blanks, ¬IsForeign b := fun b hb hforeign => hforeign (.inl (hblanks b hb))
  induction h with
  | eof hblanks => exact hblank hblanks
  | token hblanks hcovers hts ih =>
    intro c hc
    rcases List.mem_append.mp hc with hc | hc
    · exact hblank hblanks c hc
    · exact (List.mem_append.mp hc).elim (hcovers.not_isForeign c) (ih c)

/-- A text with foreign characters is refused at the first one, and the tokens of every other text
tile it. -/
theorem tiles_or_foreign (source : String) :
    ((∃ f, (tokenize source : Except Failure (List (Token Symbol))) = .error f) ↔
      ∃ c ∈ source.toList, IsForeign c) ∧
    (∀ f, (tokenize source : Except Failure (List (Token Symbol))) = .error f →
      ∃ before c after, source.toList = before ++ c :: after ∧ (∀ d ∈ before, ¬IsForeign d) ∧
        IsForeign c ∧ f = ⟨.unrecognisedCharacter c, byteLength before⟩) ∧
    ∀ tokens, tokenize source = .ok tokens →
      Tiles Symbol.Covers 0 source.toList tokens ∧
      ∃ ts, tokens = ts ++ [⟨.eof, byteLength source.toList⟩] ∧ ∀ t ∈ ts, t.symbol.kind ≠ .eof := by
  have hfirst : ∀ f, (tokenize source : Except Failure (List (Token Symbol))) = .error f →
      ∃ before c after, source.toList = before ++ c :: after ∧ (∀ d ∈ before, ¬IsForeign d) ∧
        IsForeign c ∧ f = ⟨.unrecognisedCharacter c, byteLength before⟩ := by
    intro f hf
    obtain ⟨before, c, after, hsource, hbefore, hc, hfailure⟩ :=
      exists_foreign_of_failed (ending_of_tokenize_eq_error hf)
    exact ⟨before, c, after, hsource, hbefore, hc, by simpa [Cursor.start] using hfailure⟩
  have htiles {tokens : List (Token Symbol)} (h : tokenize source = .ok tokens) :
      Tiles Symbol.Covers 0 source.toList tokens :=
    tiles_of_spells (fun _ _ _ hspells hends _ => covers_of_spells hspells hends) h
  refine ⟨⟨?_, ?_⟩, hfirst, fun tokens h => ⟨htiles h, ?_⟩⟩
  · rintro ⟨f, hf⟩
    obtain ⟨before, c, after, hsource, -, hc, -⟩ := hfirst f hf
    exact ⟨c, by simp [hsource], hc⟩
  · rintro ⟨c, hc, hforeign⟩
    cases h : (tokenize source : Except Failure (List (Token Symbol))) with
    | error f => exact ⟨f, rfl⟩
    | ok tokens => exact absurd hforeign (not_isForeign_of_tiles (htiles h) c hc)
  · obtain ⟨ts, rfl, hts⟩ := (htiles h).exists_eq_concat
    refine ⟨ts, by rw [Nat.zero_add]; rfl, fun t ht => ?_⟩
    obtain ⟨covered, rest, hcovers⟩ := hts t ht
    exact hcovers.ne_eof

/-- A second point starts a second number. -/
theorem tiles_or_foreign_two_points :
    Tiles Symbol.Covers 0 "1.2.3 *.5".toList
      [⟨⟨.number, "1.2"⟩, 0⟩, ⟨⟨.number, ".3"⟩, 3⟩, ⟨⟨.star, "*"⟩, 6⟩, ⟨⟨.number, ".5"⟩, 7⟩,
        ⟨.eof, 9⟩] ∧
    ∃ c ∈ "2 é".toList, IsForeign c :=
  ⟨((tiles_or_foreign "1.2.3 *.5").2.2 _ rfl).1, (tiles_or_foreign "2 é").1.mp ⟨_, rfl⟩⟩

end Dialects.Expr
