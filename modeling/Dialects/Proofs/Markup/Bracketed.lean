import Dialects.Proofs.Markup.Located
import Dialects.Proofs.Markup.Orthography
import Dialects.Proofs.Tiling

/-!
# Bracketed texts

The brackets of a text that can be scanned are those of tags with names, one tag behind the other. Each
tag is a token, and so is each stretch of text outside of the tags that is not blank.
-/

namespace Dialects.Markup

open Dialects.Text

/-! ## Texts with brackets -/

/-- Whether the brackets of a text are an opening and a closing one by turns, as many of each. -/
def BracketsAlternate (cs : List Char) : Prop :=
  ∃ n, cs.filter isBracket = (List.replicate n ['<', '>']).flatten

/-- What is between the brackets of a tag, without the slash of a closing one. -/
def withoutSlash : List Char → List Char
  | '/' :: cs => cs
  | cs => cs

/-- Whether something that is not blank is between the brackets of a tag. -/
def IsNamed (inside : List Char) : Prop := ∃ c ∈ withoutSlash inside, isBlank c = false

def TagsAreNamed (cs : List Char) : Prop :=
  ∀ before inside after, cs = before ++ '<' :: (inside ++ '>' :: after) →
    (∀ c ∈ inside, isBracket c = false) → IsNamed inside

/-- Whether a symbol is that of a tag with some characters between its brackets. -/
structure Symbol.IsTag (s : Symbol) (inside : List Char) : Prop where
  kind : s.kind = if inside.head? = some '/' then .closeTag else .openTag
  lexeme : s.lexeme.toList = trim (withoutSlash inside)

/-- Whether a symbol is that of a stretch of text outside of tags. -/
structure Symbol.IsLeaf (s : Symbol) (stretch : List Char) : Prop where
  exists_not_blank : ∃ c ∈ stretch, isBlank c = false
  kind : s.kind = (Symbol.ofText (trim stretch)).kind
  lexeme : s.lexeme.toList = trim stretch

/-- Whether a token is that of a tag of a text, or of a stretch that tags or the ends of the text
delimit. The text starts at an offset. -/
inductive Occurs (offset : Nat) (cs : List Char) : Token Symbol → Prop
  | tag {before inside after : List Char} {s : Symbol}
    (hcs : cs = before ++ '<' :: (inside ++ '>' :: after))
    (hinside : ∀ c ∈ inside, isBracket c = false) (hs : s.IsTag inside) :
    Occurs offset cs ⟨s, offset + byteLength before⟩
  | leaf {before stretch after : List Char} {s : Symbol} (hcs : cs = before ++ (stretch ++ after))
    (hbefore : ∀ d ∈ before.getLast?, d = '>') (hafter : ∀ d ∈ after.head?, d = '<')
    (hstretch : ∀ c ∈ stretch, isBracket c = false) (hs : s.IsLeaf stretch) :
    Occurs offset cs ⟨s, offset + byteLength (before ++ stretch.takeWhile isBlank)⟩

/-! ## Symbols of tags and leaves -/

theorem Symbol.eq_of_kind_eq {s s' : Symbol} (hkind : s.kind = s'.kind)
    (hlexeme : s.lexeme = s'.lexeme) : s = s' := by
  cases s <;> cases s' <;> simp_all [Symbol.kind, Symbol.lexeme]
  rename_i b b'
  cases b <;> cases b' <;> simp_all

theorem lexeme_ofText (cs : List Char) : (Symbol.ofText cs).lexeme = String.ofList cs := by
  simp only [Symbol.ofText, beq_iff_eq]
  split_ifs <;> simp_all [Symbol.lexeme]

theorem isLeaf_iff {s : Symbol} {stretch : List Char} :
    s.IsLeaf stretch ↔ (∃ c ∈ stretch, isBlank c = false) ∧ s = Symbol.ofText (trim stretch) := by
  constructor
  · intro h
    refine ⟨h.exists_not_blank, Symbol.eq_of_kind_eq h.kind ?_⟩
    rw [lexeme_ofText, ← h.lexeme, String.ofList_toList]
  · rintro ⟨hblank, rfl⟩
    exact ⟨hblank, rfl, by simp [lexeme_ofText]⟩

theorem withoutSlash_append {closing : Bool} {name : List Char}
    (hslash : closing = false → name.head? ≠ some '/') :
    withoutSlash ((if closing then ['/'] else []) ++ name) = name := by
  cases closing with
  | true => rfl
  | false =>
    unfold withoutSlash
    split
    · rename_i cs hname
      exact absurd (by rw [show name = '/' :: cs from hname]; rfl) (hslash rfl)
    · rfl

theorem isTag_iff {s : Symbol} {closing : Bool} {name : List Char}
    (hslash : closing = false → name.head? ≠ some '/') :
    s.IsTag ((if closing then ['/'] else []) ++ name) ↔ s = Symbol.ofMark closing (trim name) := by
  have hkind : (if ((if closing then ['/'] else []) ++ name).head? = some '/' then Kind.closeTag
      else Kind.openTag) = (Symbol.ofMark closing (trim name)).kind := by
    cases closing with
    | true => rfl
    | false => exact if_neg (hslash rfl)
  have hlexeme : (Symbol.ofMark closing (trim name)).lexeme = String.ofList (trim name) := by
    cases closing <;> rfl
  constructor
  · intro h
    refine Symbol.eq_of_kind_eq (h.kind.trans hkind) ?_
    rw [hlexeme, ← String.toList_inj, h.lexeme, withoutSlash_append hslash, String.toList_ofList]
  · rintro rfl
    refine ⟨hkind.symm, ?_⟩
    rw [hlexeme, withoutSlash_append hslash, String.toList_ofList]

/-! ## Texts as tags and stretches -/

/-- A text is a stretch without brackets, or a stretch, a tag and a text. -/
inductive Bracketed : List Char → Prop
  | stretch {cs : List Char} (hcs : ∀ c ∈ cs, isBracket c = false) : Bracketed cs
  | tag {before inside rest : List Char} (hbefore : ∀ c ∈ before, isBracket c = false)
    (hinside : ∀ c ∈ inside, isBracket c = false) (hnamed : IsNamed inside)
    (hrest : Bracketed rest) : Bracketed (before ++ '<' :: (inside ++ '>' :: rest))

theorem append_cons_eq_append_cons {α : Type} {p : α → Bool} {xs ys us vs : List α} {a b : α}
    (hxs : ∀ x ∈ xs, p x = false) (hb : p b) (h : xs ++ a :: ys = us ++ b :: vs) :
    (xs = us ∧ a = b ∧ ys = vs) ∨ ∃ ms, us = xs ++ a :: ms ∧ ys = ms ++ b :: vs := by
  obtain ⟨ms, rfl, hsplit⟩ | ⟨ms, rfl, hsplit⟩ := List.append_eq_append_iff.mp h
  · cases ms with
    | nil => simpa using hsplit
    | cons m ms =>
      obtain ⟨rfl, rfl⟩ := List.cons.inj hsplit
      exact .inr ⟨ms, rfl, rfl⟩
  · cases ms with
    | nil =>
      obtain ⟨rfl, rfl⟩ := List.cons.inj hsplit
      exact .inl ⟨List.append_nil _, rfl, rfl⟩
    | cons m ms =>
      obtain ⟨rfl, -⟩ := List.cons.inj hsplit
      simp [hxs b (by simp)] at hb

section

variable {before inside rest before' after : List Char}
  (hbefore : ∀ c ∈ before, isBracket c = false) (hinside : ∀ c ∈ inside, isBracket c = false)

include hbefore hinside

theorem eq_or_exists_of_tag {inside' : List Char} (hinner : ∀ c ∈ inside', isBracket c = false)
    (h : before ++ '<' :: (inside ++ '>' :: rest) = before' ++ '<' :: (inside' ++ '>' :: after)) :
    (before' = before ∧ inside' = inside) ∨
      ∃ ms, before' = before ++ '<' :: (inside ++ '>' :: ms) ∧
        rest = ms ++ '<' :: (inside' ++ '>' :: after) := by
  obtain ⟨rfl, -, hrest⟩ | ⟨ms, rfl, hrest⟩ := append_cons_eq_append_cons hbefore rfl h
  · obtain ⟨rfl, -, -⟩ | ⟨ms, rfl, -⟩ := append_cons_eq_append_cons hinside rfl hrest
    · exact .inl ⟨rfl, rfl⟩
    · exact absurd (hinner '>' (by simp)) (by decide)
  · obtain ⟨-, hne, -⟩ | ⟨ms, rfl, rfl⟩ := append_cons_eq_append_cons hinside rfl hrest
    · simp at hne
    · exact .inr ⟨ms, rfl, rfl⟩

theorem eq_or_exists_of_stretch {stretch : List Char}
    (hstretch : ∀ c ∈ stretch, isBracket c = false) (hbefore' : ∀ d ∈ before'.getLast?, d = '>')
    (hafter : ∀ d ∈ after.head?, d = '<')
    (h : before ++ '<' :: (inside ++ '>' :: rest) = before' ++ (stretch ++ after)) :
    (before' = [] ∧ stretch = before) ∨
      ∃ ms, before' = before ++ '<' :: (inside ++ '>' :: ms) ∧ rest = ms ++ (stretch ++ after) ∧
        ∀ d ∈ ms.getLast?, d = '>' := by
  -- A stretch starts where the text does, or behind a closing bracket.
  obtain rfl | ⟨before', d, rfl⟩ := before'.eq_nil_or_concat'
  · cases after with
    | nil =>
      rw [List.append_nil, List.nil_append] at h
      exact absurd (hstretch '<' (by simp [← h])) (by decide)
    | cons d after =>
      obtain rfl := hafter d rfl
      obtain ⟨rfl, -, -⟩ | ⟨ms, rfl, -⟩ := append_cons_eq_append_cons hbefore rfl h
      · exact .inl ⟨rfl, rfl⟩
      · exact absurd (hstretch '<' (by simp)) (by decide)
  · obtain rfl := hbefore' d (by simp)
    rw [List.append_assoc, List.singleton_append] at h
    obtain ⟨-, hne, -⟩ | ⟨ms, rfl, hrest⟩ := append_cons_eq_append_cons hbefore rfl h
    · simp at hne
    · obtain ⟨rfl, -, rfl⟩ | ⟨ms, rfl, rfl⟩ := append_cons_eq_append_cons hinside rfl hrest
      · exact .inr ⟨[], by simp, rfl, by simp⟩
      · exact .inr ⟨ms ++ ['>'], by simp, by simp, by simp⟩

end

theorem Bracketed.append {cs rest : List Char} (hrest : Bracketed rest)
    (hcs : ∀ c ∈ cs, isBracket c = false) : Bracketed (cs ++ rest) := by
  cases hrest with
  | stretch hrest => exact .stretch fun c hc => (List.mem_append.mp hc).elim (hcs c) (hrest c)
  | tag hbefore hinside hnamed hrest =>
    rw [← List.append_assoc]
    exact .tag (fun c hc => (List.mem_append.mp hc).elim (hcs c) (hbefore c)) hinside hnamed hrest

theorem filter_isBracket_eq_nil {cs : List Char} (h : ∀ c ∈ cs, isBracket c = false) :
    cs.filter isBracket = [] := by
  simpa [List.filter_eq_nil_iff] using h

theorem Bracketed.bracketsAlternate {cs : List Char} (h : Bracketed cs) : BracketsAlternate cs := by
  induction h with
  | stretch hcs => exact ⟨0, filter_isBracket_eq_nil hcs⟩
  | @tag before inside rest hbefore hinside hnamed hrest ih =>
    obtain ⟨n, hn⟩ := ih
    refine ⟨n + 1, ?_⟩
    rw [List.filter_append, filter_isBracket_eq_nil hbefore, List.filter_cons_of_pos rfl,
      List.filter_append, filter_isBracket_eq_nil hinside, List.filter_cons_of_pos rfl, hn]
    rfl

theorem Bracketed.tagsAreNamed {cs : List Char} (h : Bracketed cs) : TagsAreNamed cs := by
  induction h with
  | stretch hcs =>
    rintro before inside after rfl -
    exact absurd (hcs '<' (by simp)) (by decide)
  | @tag before inside rest hbefore hinside hnamed hrest ih =>
    intro before' inside' after h hinside'
    obtain ⟨-, rfl⟩ | ⟨ms, -, hrest⟩ := eq_or_exists_of_tag hbefore hinside hinside' h
    · exact hnamed
    · exact ih ms inside' after hrest hinside'

theorem bracketed_of_alternate {cs : List Char} (h : BracketsAlternate cs) (htags : TagsAreNamed cs) :
    Bracketed cs := by
  obtain ⟨n, hn⟩ := h
  induction n generalizing cs with
  | zero => exact .stretch (by simpa [List.filter_eq_nil_iff] using hn)
  | succ n ih =>
    rw [List.replicate_succ, List.flatten_cons, List.cons_append] at hn
    obtain ⟨before, behind, rfl, hbefore, -, hn⟩ := List.filter_eq_cons_iff.mp hn
    obtain ⟨inside, rest, rfl, hinside, -, hn⟩ := List.filter_eq_cons_iff.mp hn
    simp only [Bool.not_eq_true] at hbefore hinside
    refine .tag hbefore hinside (htags before inside rest rfl hinside) (ih ?_ hn)
    intro before' inside' after h
    exact htags (before ++ '<' :: (inside ++ '>' :: before')) inside' after (by simp [h])

/-! ## What can be scanned is bracketed -/

theorem bracketed_of_spelledAs {cs rest : List Char} {s : Symbol} (h : SpelledAs cs s)
    (hrest : Bracketed rest) : Bracketed (cs ++ rest) := by
  cases h with
  | leaf h => exact hrest.append h.2.2
  | @tag closing raw hraw hslash hname =>
    have hmark : mark closing raw ++ rest =
        [] ++ '<' :: ((if closing then ['/'] else []) ++ raw ++ '>' :: rest) := by simp [mark]
    have hinside : ∀ c ∈ (if closing then ['/'] else []) ++ raw, isBracket c = false := by
      cases closing with
      | true => exact List.forall_mem_cons.mpr ⟨rfl, hraw⟩
      | false => exact hraw
    rw [hmark]
    refine .tag (by simp) hinside ?_ hrest
    rw [IsNamed, withoutSlash_append hslash]
    exact trim_ne_nil_iff.mp hname

theorem bracketed_of_tokenize {source : String} {tokens : List (Token Symbol)}
    (h : tokenize source = .ok tokens) : Bracketed source.toList := by
  obtain ⟨ts, position, hscan, -⟩ := tokenize_eq_ok_iff.mp h
  obtain ⟨ps, blanks, hsource, hps, hblanks, -⟩ := Scan.exists_pieces hscan
  rw [show source.toList = _ from hsource]
  clear hscan hsource
  induction ps with
  | nil => exact .stretch fun b hb => by simpa using not_isBracket_of_isBlank (hblanks b hb)
  | cons p ps ih =>
    obtain ⟨hfront, hspells, -, hps⟩ := hps
    rw [Piece.text_cons, Piece.chars, List.append_assoc, List.append_assoc]
    refine (bracketed_of_spelledAs hspells (ih hps)).append fun b hb => ?_
    simpa using not_isBracket_of_isBlank (hfront b hb)

/-! ## Tokens of bracketed texts -/

theorem ofText_ne_eof (cs : List Char) : Symbol.ofText cs ≠ .eof := by
  unfold Symbol.ofText
  dsimp only
  split_ifs <;> simp

theorem ofCursor_leaf {stretch rest : List Char} (hstretch : ∀ c ∈ stretch, isBracket c = false)
    (hblank : ∃ c ∈ stretch, isBlank c = false) (hrest : Stops (!isBracket ·) rest) (offset : Nat) :
    (Scan.ofCursor ⟨offset, stretch ++ rest⟩ : Scan Symbol) =
      (Scan.ofCursor ⟨offset + byteLength stretch, rest⟩ : Scan Symbol).cons
        ⟨Symbol.ofText (trim stretch), offset + byteLength (stretch.takeWhile isBlank)⟩ := by
  have hsplit := List.takeWhile_append_dropWhile (p := isBlank) (l := stretch)
  have hblanks : ∀ c ∈ stretch.takeWhile isBlank, isBlank c := fun c hc => List.mem_takeWhile_imp hc
  have hstops := stops_dropWhile isBlank stretch
  cases hdrop : stretch.dropWhile isBlank with
  | nil =>
    obtain ⟨c, hc, hblank⟩ := hblank
    simp [List.dropWhile_eq_nil_iff.mp hdrop c hc] at hblank
  | cons d ds =>
    rw [hdrop] at hsplit hstops
    have hd : isBlank d = false := stops_cons.mp hstops
    have hds : ∀ c ∈ d :: ds, isBracket c = false := fun c hc =>
      hstretch c ((List.dropWhile_suffix isBlank).subset (hdrop ▸ hc))
    -- What is behind the blanks at the front is read as one token.
    have hnext := next_leaf hd hds hrest (offset + byteLength (stretch.takeWhile isBlank))
    have htrim : trim (d :: ds) = trim stretch := by rw [← hdrop, trim_dropWhile]
    rw [Nat.add_assoc, ← byteLength_append, hsplit, htrim] at hnext
    rw [← Scan.ofCursor_of_next hnext (isEof_eq_false (ofText_ne_eof _)),
      ← Scan.ofCursor_append_blanks hblanks, ← List.cons_append, ← List.append_assoc, hsplit]

theorem ofCursor_stretch {stretch rest : List Char} (hstretch : ∀ c ∈ stretch, isBracket c = false)
    (hrest : Stops (!isBracket ·) rest) (offset : Nat) :
    ∃ ts, (Scan.ofCursor ⟨offset, stretch ++ rest⟩ : Scan Symbol) =
        ⟨ts ++ (Scan.ofCursor ⟨offset + byteLength stretch, rest⟩ : Scan Symbol).tokens,
          (Scan.ofCursor ⟨offset + byteLength stretch, rest⟩ : Scan Symbol).ending⟩ ∧
      ∀ t, t ∈ ts ↔ t.symbol.IsLeaf stretch ∧
        t.position = offset + byteLength (stretch.takeWhile isBlank) := by
  by_cases hblank : ∃ c ∈ stretch, isBlank c = false
  · refine ⟨[_], ofCursor_leaf hstretch hblank hrest offset, fun t => ?_⟩
    obtain ⟨s, position⟩ := t
    simp [isLeaf_iff, hblank]
  · have hall : ∀ c ∈ stretch, isBlank c := by simpa using hblank
    refine ⟨[], Scan.ofCursor_append_blanks hall offset rest, fun t => ?_⟩
    simp [isLeaf_iff, hblank]

theorem ofCursor_tag {inside : List Char} (hinside : ∀ c ∈ inside, isBracket c = false)
    (hnamed : IsNamed inside) (offset : Nat) (rest : List Char) :
    ∃ s : Symbol, (Scan.ofCursor ⟨offset, '<' :: (inside ++ '>' :: rest)⟩ : Scan Symbol) =
        (Scan.ofCursor ⟨offset + byteLength ('<' :: (inside ++ ['>'])), rest⟩ : Scan Symbol).cons
          ⟨s, offset⟩ ∧ ∀ s', s' = s ↔ s'.IsTag inside := by
  obtain ⟨closing, name, rfl, hslash⟩ := exists_closing inside
  have hname : ∀ c ∈ name, isBracket c = false := fun c hc =>
    hinside c (List.mem_append_right _ hc)
  have hne : trim name ≠ [] := by
    rw [IsNamed, withoutSlash_append hslash] at hnamed
    exact trim_ne_nil_iff.mpr hnamed
  have hmark : '<' :: ((if closing then ['/'] else []) ++ name ++ ['>']) = mark closing name := by
    simp [mark]
  have htext : '<' :: ((if closing then ['/'] else []) ++ name ++ '>' :: rest) =
      mark closing name ++ rest := by simp [mark]
  refine ⟨Symbol.ofMark closing (trim name), ?_, fun s => (isTag_iff hslash).symm⟩
  have hnext := next_mark hname closing hslash offset rest
  rw [if_neg (by simpa using hne)] at hnext
  rw [hmark, htext]
  exact Scan.ofCursor_of_next hnext (isEof_eq_false (by cases closing <;> simp [Symbol.ofMark]))

/-! ## Occurrences in bracketed texts -/

theorem occurs_stretch_iff {offset : Nat} {cs : List Char} {t : Token Symbol}
    (hcs : ∀ c ∈ cs, isBracket c = false) : Occurs offset cs t ↔
      t.symbol.IsLeaf cs ∧ t.position = offset + byteLength (cs.takeWhile isBlank) := by
  constructor
  · rintro (⟨rfl, -, -⟩ | @⟨before, stretch, after, s, rfl, hbefore, hafter, -, hs⟩)
    · exact absurd (hcs '<' (by simp)) (by decide)
    · obtain rfl : before = [] := by
        by_contra hne
        obtain ⟨before, d, rfl⟩ := List.eq_nil_or_concat before |>.resolve_left hne
        obtain rfl := hbefore d (by simp)
        exact absurd (hcs '>' (by simp)) (by decide)
      obtain rfl : after = [] := by
        by_contra hne
        obtain ⟨d, after, rfl⟩ := List.exists_cons_of_ne_nil hne
        obtain rfl := hafter d rfl
        exact absurd (hcs '<' (by simp)) (by decide)
      exact ⟨by simpa using hs, by simp⟩
  · obtain ⟨s, position⟩ := t
    rintro ⟨hs, rfl⟩
    exact @Occurs.leaf offset cs [] cs [] s (by simp) (by simp) (by simp) hcs hs

theorem Occurs.append {offset : Nat} {front rest : List Char} {t : Token Symbol}
    (hfront : front.getLast? = some '>') (h : Occurs (offset + byteLength front) rest t) :
    Occurs offset (front ++ rest) t := by
  cases h with
  | @tag before inside after s hrest hinside hs =>
    rw [Nat.add_assoc, ← byteLength_append]
    exact @Occurs.tag offset _ _ inside after s (by simp [hrest]) hinside hs
  | @leaf before stretch after s hrest hbefore hafter hstretch hs =>
    rw [Nat.add_assoc, ← byteLength_append, ← List.append_assoc]
    refine @Occurs.leaf offset _ _ stretch after s (by simp [hrest]) ?_ hafter hstretch hs
    -- In front of a stretch right behind the tag is the bracket of the tag.
    rw [List.getLast?_append, hfront]
    cases hlast : before.getLast? with
    | none => simp
    | some d => simpa [hlast] using hbefore

theorem occurs_tag_iff {offset : Nat} {before inside rest : List Char} {t : Token Symbol}
    (hbefore : ∀ c ∈ before, isBracket c = false) (hinside : ∀ c ∈ inside, isBracket c = false) :
    Occurs offset (before ++ '<' :: (inside ++ '>' :: rest)) t ↔
      (t.symbol.IsLeaf before ∧ t.position = offset + byteLength (before.takeWhile isBlank)) ∨
      (t.symbol.IsTag inside ∧ t.position = offset + byteLength before) ∨
      Occurs (offset + byteLength (before ++ '<' :: (inside ++ ['>']))) rest t := by
  have hmoved (ms : List Char) : offset + byteLength (before ++ '<' :: (inside ++ '>' :: ms)) =
      offset + byteLength (before ++ '<' :: (inside ++ ['>'])) + byteLength ms := by
    simp [Nat.add_assoc]
  constructor
  · rintro (⟨hsplit, hinside', hs⟩ | ⟨hsplit, hbefore', hafter, hstretch, hs⟩)
    · obtain ⟨rfl, rfl⟩ | ⟨ms, rfl, hrest⟩ := eq_or_exists_of_tag hbefore hinside hinside' hsplit
      · exact .inr (.inl ⟨hs, rfl⟩)
      · rw [hmoved]
        exact .inr (.inr (.tag hrest hinside' hs))
    · obtain ⟨rfl, rfl⟩ | ⟨ms, rfl, hrest, hms⟩ :=
        eq_or_exists_of_stretch hbefore hinside hstretch hbefore' hafter hsplit
      · exact .inl ⟨hs, by simp⟩
      · rw [List.append_assoc, List.cons_append, List.append_assoc, List.cons_append, hmoved]
        exact .inr (.inr (.leaf hrest hms hafter hstretch hs))
  · obtain ⟨s, position⟩ := t
    rintro (⟨hs, rfl⟩ | ⟨hs, rfl⟩ | hoccurs)
    · exact @Occurs.leaf offset _ [] before _ s rfl (by simp) (by simp) hbefore hs
    · exact .tag rfl hinside hs
    · have hlast : (before ++ '<' :: (inside ++ ['>'])).getLast? = some '>' := by
        rw [← List.cons_append, ← List.append_assoc, List.getLast?_concat]
      simpa using hoccurs.append hlast

theorem Bracketed.exists_tokens {cs : List Char} (h : Bracketed cs) (offset : Nat) :
    ∃ ts, (Scan.ofCursor ⟨offset, cs⟩ : Scan Symbol) = ⟨ts, .eof (offset + byteLength cs)⟩ ∧
      ∀ t, t ∈ ts ↔ Occurs offset cs t := by
  induction h generalizing offset with
  | @stretch cs hcs =>
    obtain ⟨ts, hscan, hts⟩ := ofCursor_stretch hcs stops_nil offset
    refine ⟨ts, ?_, fun t => (hts t).trans (occurs_stretch_iff hcs).symm⟩
    rw [List.append_nil] at hscan
    rw [hscan]
    simp [Scan.ofCursor, Scan.upTo]
  | @tag before inside rest hbefore hinside hnamed hrest ih =>
    obtain ⟨ts, hscan, hts⟩ := ofCursor_stretch hbefore
      (stops_of_bracket (d := '<') rfl (inside ++ '>' :: rest)) offset
    obtain ⟨s, hscan', hs⟩ := ofCursor_tag hinside hnamed (offset + byteLength before) rest
    obtain ⟨us, hscan'', hus⟩ := ih (offset + byteLength (before ++ '<' :: (inside ++ ['>'])))
    rw [byteLength_append, ← Nat.add_assoc] at hscan''
    refine ⟨ts ++ ⟨s, offset + byteLength before⟩ :: us, ?_, fun t => ?_⟩
    · rw [hscan, hscan', hscan'']
      simp [Scan.cons, Nat.add_assoc]
    · rw [occurs_tag_iff hbefore hinside, ← hus, ← hs, ← hts, List.mem_append, List.mem_cons]
      obtain ⟨s', position⟩ := t
      simp

/-- A text can be scanned exactly if its brackets are those of named tags. Its tokens are then, in the
order of the text, those of its tags and of the stretches between them that are not blank. -/
theorem tokenize_bracketed (source : String) :
    ((∃ tokens, (tokenize source : Except Failure (List (Token Symbol))) = .ok tokens) ↔
      BracketsAlternate source.toList ∧ TagsAreNamed source.toList) ∧
    ∀ tokens, tokenize source = .ok tokens →
      ∃ ts, tokens = ts ++ [⟨.eof, byteLength source.toList⟩] ∧
        (ts.map Token.position).Pairwise (· < ·) ∧ ∀ t, t ∈ ts ↔ Occurs 0 source.toList t := by
  have htokens (h : Bracketed source.toList) : ∃ ts,
      (tokenize source : Except Failure (List (Token Symbol))) =
        .ok (ts ++ [⟨.eof, byteLength source.toList⟩]) ∧ ∀ t, t ∈ ts ↔ Occurs 0 source.toList t := by
    obtain ⟨ts, hscan, hts⟩ := h.exists_tokens 0
    rw [Nat.zero_add] at hscan
    exact ⟨ts, tokenize_eq_ok_iff.mpr ⟨ts, _, hscan, rfl⟩, hts⟩
  refine ⟨⟨?_, ?_⟩, fun tokens h => ?_⟩
  · rintro ⟨tokens, h⟩
    have hbracketed := bracketed_of_tokenize h
    exact ⟨hbracketed.bracketsAlternate, hbracketed.tagsAreNamed⟩
  · rintro ⟨halternate, hnamed⟩
    obtain ⟨ts, h, -⟩ := htokens (bracketed_of_alternate halternate hnamed)
    exact ⟨_, h⟩
  · obtain ⟨ts, hts, hoccurs⟩ := htokens (bracketed_of_tokenize h)
    obtain rfl := Except.ok.inj (h.symm.trans hts)
    -- Each token covers something, so positions increase.
    have htiles : Tiles (σ := Symbol) (fun _ cs _ => cs ≠ []) 0 source.toList _ :=
      tiles_of_spells (fun _ _ _ hspells _ _ => (LawfulOrthography.isTrimmed hspells).1) h
    have hpairwise := htiles.pairwise_position fun _ _ _ hne => hne
    rw [List.map_append, List.pairwise_append] at hpairwise
    exact ⟨ts, rfl, hpairwise.1, hoccurs⟩

/-- Blanks around a leaf and around a name belong to neither. -/
theorem tokenize_bracketed_blanks :
    BracketsAlternate " 1 </ é>".toList ∧ Occurs 0 " 1 </ é>".toList ⟨.number "1", 1⟩ ∧
      Occurs 0 " 1 </ é>".toList ⟨.closeTag "é", 3⟩ := by
  obtain ⟨hiff, hok⟩ := tokenize_bracketed " 1 </ é>"
  have h : tokenize " 1 </ é>" =
      .ok ([⟨Symbol.number "1", 1⟩, ⟨Symbol.closeTag "é", 3⟩] ++ [⟨Symbol.eof, 9⟩]) := rfl
  obtain ⟨ts, hts, -, hoccurs⟩ := hok _ h
  obtain rfl := List.append_cancel_right hts
  exact ⟨(hiff.mp ⟨_, h⟩).1, (hoccurs _).mp (by simp), (hoccurs _).mp (by simp)⟩

end Dialects.Markup
